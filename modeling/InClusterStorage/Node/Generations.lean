import InClusterStorage.Lib.Runs
import InClusterStorage.Node.CacheSteps

/- Late completions and local changes, over any number of inodes.

   A read takes the generation of its inode when it is issued and fills the cache when its
   reply is there; a push copies the dirty chunks with their generations and marks them
   clean when it is acknowledged. In between the node changes its files, and entries are
   evicted and made again.

   The generation of an inode (`GetGeneration`: that of its entry, or the counter of the
   cache where it has none) never falls, and a local change lifts it over every generation
   that was handed out (`Advances`). This gives the three results of `completions_ordered`:
   a reply that a local change has overtaken is dropped, an acknowledgement leaves the mark
   of a chunk that was written since, and only a truncation or a hole takes a dirty chunk
   out of the cache.

   A hole that is punched into a dirty chunk zeroes it in place and leaves its mark as it
   is: an acknowledgement of the bytes before clears it. -/
namespace InClusterStorage.Node

open Table NodeCache CachedEntry List Option Runs

open Controller (chunkRange)

/-! The machine. -/

/-- A read that waits for its reply. -/
structure IssuedRead where
  inode : Nat
  readGen : Nat
  /-- the inode was changed locally since the generation was taken -/
  overtaken : Bool := false

/-- A push that waits for its acknowledgement. -/
structure IssuedPush where
  inode : Nat
  gens : AList fun _ : Nat => Nat
  /-- the chunks written since the copy was made -/
  rewritten : List Nat := []

structure CacheState where
  cache : NodeCache
  reads : List IssuedRead := []
  pushes : List IssuedPush := []

inductive CacheEvent where
  | writeAt (inode offset : Nat) (data : List UInt8) (now : Nat)
  | truncate (inode size now : Nat)
  | punchHole (inode offset length : Nat) (keepSize : Bool) (now : Nat)
  | getGeneration (inode : Nat)
  | putChunk (read chunkIdx chunkSize totalSize : Nat) (data : List UInt8) (now : Nat)
  | getDirtyChunks (inode : Nat)
  | markChunkClean (push chunkIdx : Nat)
  | markSizeClean (inode gen : Nat)
  /-- `GetRange` or `GetChunk` -/
  | touch (inode now : Nat)
  | evict (neededBytes : Int)
  | invalidateIfNotDirty (inode : Nat)
  | invalidateAllClean

def IssuedRead.overtake (inode : Nat) (read : IssuedRead) : IssuedRead :=
  if read.inode = inode then { read with overtaken := true } else read

def IssuedPush.rewrite (inode : Nat) (chunks : List Nat) (push : IssuedPush) : IssuedPush :=
  if push.inode = inode then { push with rewritten := push.rewritten ++ chunks } else push

namespace CacheState

def start (maxBytes : Int) : CacheState := { cache := .new maxBytes }

/-- A local change of the inode has left the cache `cache`. -/
def changed (inode : Nat) (cache : NodeCache) (s : CacheState) : CacheState :=
  { s with cache, reads := s.reads.map (·.overtake inode) }

def step (s : CacheState) : CacheEvent → Option CacheState
  | .writeAt inode offset data now =>
    let chunks := chunkRange (s.cache.writeBase inode now).chunkSizeOf offset (offset + data.length)
    let s := s.changed inode (s.cache.writeAt inode offset data now)
    some { s with pushes := s.pushes.map (·.rewrite inode chunks) }
  | .truncate inode size now => some (s.changed inode (s.cache.truncate inode size now).1)
  | .punchHole inode offset length keepSize now =>
    some (s.changed inode (s.cache.punchHole inode offset length keepSize now).1)
  | .getGeneration inode => some { s with reads := s.reads ++ [{ inode, readGen := s.cache.getGeneration inode }] }
  | .putChunk read chunkIdx chunkSize totalSize data now =>
    match s.reads[read]? with
    | none => none
    | some r => some { s with cache := s.cache.putChunk r.inode chunkIdx chunkSize totalSize data r.readGen now }
  | .getDirtyChunks inode =>
    match s.cache.getDirtyChunks inode with
    | none => some s
    | some dirty => some { s with pushes := s.pushes ++ [{ inode, gens := dirty.gens }] }
  | .markChunkClean push chunkIdx =>
    match s.pushes[push]? with
    | none => none
    | some p => match p.gens.lookup chunkIdx with
      | none => none
      | some gen => some { s with cache := s.cache.markChunkClean p.inode chunkIdx gen }
  | .markSizeClean inode gen => some { s with cache := s.cache.markSizeClean inode gen }
  | .touch inode now => some { s with cache := s.cache.touch inode now }
  | .evict neededBytes => some { s with cache := s.cache.evictIfNeededLocked neededBytes }
  | .invalidateIfNotDirty inode => some { s with cache := s.cache.invalidateIfNotDirty inode }
  | .invalidateAllClean => some { s with cache := s.cache.invalidateAllClean }

end CacheState

/-- The event is a truncation of the inode or a hole in it. -/
def CacheEvent.Cuts (inode : Nat) : CacheEvent → Prop
  | .truncate inode' _ _ => inode' = inode
  | .punchHole inode' _ _ _ _ => inode' = inode
  | _ => False

def CacheEvent.Writes (inode : Nat) : CacheEvent → Prop
  | .writeAt inode' _ _ _ => inode' = inode
  | _ => False

namespace NodeCache

/-- No generation is ahead of the counter, and what is marked dirty is in the cache. -/
structure Wf (c : NodeCache) : Prop where
  generation : ∀ inode e, c.entries.lookup inode = some e → e.generation ≤ c.curGen
  marks : ∀ inode e i gen, c.entries.lookup inode = some e → e.dirtyChunks.lookup i = some gen →
    gen ≤ c.curGen ∧ (e.chunks.lookup i).isSome

/-- A dirty chunk stays in the cache, and only a write changes its bytes. -/
def Stays (event : CacheEvent) (c c' : NodeCache) (inode i : Nat) : Prop :=
  ∃ chunk, c.chunkAt inode i = some chunk ∧
    (c'.chunkAt inode i = some chunk ∨ event.Writes inode ∧ (c'.chunkAt inode i).isSome)

/-- One step of the cache: the generation of no inode falls, a chunk is marked dirty as it was
or with a new generation, and only a cut takes a dirty chunk away. -/
structure Advances (event : CacheEvent) (c c' : NodeCache) : Prop where
  curGen : c.curGen ≤ c'.curGen
  entry : ∀ inode e, c'.entries.lookup inode = some e →
    c.getGeneration inode ≤ e.generation ∧ e.generation ≤ c'.curGen ∧
      ∀ i gen, e.dirtyChunks.lookup i = some gen →
        (e.chunks.lookup i).isSome ∧ (c.markAt inode i = some gen ∨ c.curGen < gen ∧ gen ≤ c'.curGen)
  stays : ∀ inode i, (c.markAt inode i).isSome → event.Cuts inode ∨ Stays event c c' inode i

variable {event : CacheEvent} {c c' : NodeCache}

theorem Wf.getGeneration_le (h : c.Wf) (inode : Nat) : c.getGeneration inode ≤ c.curGen := by
  cases hl : c.entries.lookup inode with
  | none => exact le_of_eq (getGeneration_of_none hl)
  | some e =>
    rw [getGeneration_of_some hl]
    exact h.generation inode e hl

variable {inode now : Nat}

theorem Wf.markAt_le (h : c.Wf) {i gen : Nat} (hm : c.markAt inode i = some gen) : gen ≤ c.curGen := by
  obtain ⟨e, hl, hgen⟩ := bind_eq_some_iff.mp hm
  exact (h.marks inode e i gen hl hgen).1

namespace Advances

theorem wf (h : c.Advances event c') (hwf : c.Wf) : c'.Wf := by
  refine ⟨fun inode e hl => (h.entry inode e hl).2.1, fun inode e i gen hl hm => ?_⟩
  obtain ⟨hchunk, hmark⟩ := (h.entry inode e hl).2.2 i gen hm
  refine ⟨?_, hchunk⟩
  obtain hold | hnew := hmark
  · exact le_trans (hwf.markAt_le hold) h.curGen
  · exact hnew.2

theorem getGeneration_le (h : c.Advances event c') (hwf : c.Wf) (inode : Nat) :
    c.getGeneration inode ≤ c'.getGeneration inode := by
  cases hl : c'.entries.lookup inode with
  | none =>
    rw [getGeneration_of_none hl]
    exact le_trans (hwf.getGeneration_le inode) h.curGen
  | some e =>
    rw [getGeneration_of_some hl]
    exact (h.entry inode e hl).1

theorem markAt (h : c.Advances event c') {inode i gen : Nat} (hm : c'.markAt inode i = some gen) :
    c.markAt inode i = some gen ∨ c.curGen < gen := by
  obtain ⟨e, hl, hgen⟩ := bind_eq_some_iff.mp hm
  exact ((h.entry inode e hl).2.2 i gen hgen).2.imp_right And.left

end Advances

/-! Every operation is such a step. -/

section

variable (h : c.Wf)
include h

theorem Wf.entry {e : CachedEntry} (hl : c.entries.lookup inode = some e) :
    c.getGeneration inode ≤ e.generation ∧ e.generation ≤ c.curGen ∧
      ∀ i gen, e.dirtyChunks.lookup i = some gen →
        (e.chunks.lookup i).isSome ∧ (c.markAt inode i = some gen ∨ c.curGen < gen ∧ gen ≤ c.curGen) := by
  refine ⟨le_of_eq (getGeneration_of_some hl), h.generation inode e hl, fun i gen hm => ?_⟩
  exact ⟨(h.marks inode e i gen hl hm).2, .inl ((markAt_of_lookup hl).trans hm)⟩

theorem Wf.stays {i : Nat} (hm : (c.markAt inode i).isSome)
    (hafter : ∀ e gen, c.entries.lookup inode = some e → e.dirtyChunks.lookup i = some gen →
      ∃ e', c'.entries.lookup inode = some e' ∧ e'.chunks.lookup i = e.chunks.lookup i) : Stays event c c' inode i := by
  obtain ⟨gen, hgen⟩ := isSome_iff_exists.mp hm
  obtain ⟨e, hl, hmark⟩ := bind_eq_some_iff.mp hgen
  obtain ⟨e', hl', hsame⟩ := hafter e gen hl hmark
  obtain ⟨chunk, hchunk⟩ := isSome_iff_exists.mp (h.marks inode e i gen hl hmark).2
  refine ⟨chunk, (chunkAt_of_lookup hl).trans hchunk, .inl ?_⟩
  rw [chunkAt_of_lookup hl', hsame, hchunk]

theorem Wf.stays_of_kept {i : Nat} (hm : (c.markAt inode i).isSome)
    (hkept : Kept (c.entries.lookup inode) (c'.entries.lookup inode)) : Stays event c c' inode i :=
  h.stays hm fun e _ hl hmark => ⟨e, hkept.of_dirty hl (.of_mark hmark), rfl⟩

theorem Wf.advances_of_sheds (hs : Sheds c c') : c.Advances event c' := by
  refine ⟨le_of_eq hs.curGen.symm, fun inode e hl => ?_, fun inode i hm => .inr (h.stays_of_kept hm (hs.lookup inode))⟩
  rw [hs.curGen]
  exact h.entry ((hs.lookup inode).of_some hl)

/-- A change of one entry that leaves its generation and its chunks, and makes no marks. -/
theorem Wf.advances_of_modify {f : CachedEntry → CachedEntry} (hgen : c'.curGen = c.curGen)
    (hl : ∀ inode', c'.entries.lookup inode' =
      if inode' = inode then (c.entries.lookup inode').map f else c.entries.lookup inode')
    (hf : ∀ e, (f e).generation = e.generation ∧ (f e).chunks = e.chunks ∧
      ∀ i gen, (f e).dirtyChunks.lookup i = some gen → e.dirtyChunks.lookup i = some gen) : c.Advances event c' := by
  refine ⟨le_of_eq hgen.symm, fun inode' e he => ?_, fun inode' i hm => .inr (h.stays hm fun e gen he _ => ?_)⟩
  · rw [hgen]
    rw [hl] at he
    split at he
    · obtain ⟨e', he', rfl⟩ := map_eq_some_iff.mp he
      obtain ⟨hgeneration, hchunks, hmarks⟩ := hf e'
      obtain ⟨h₁, h₂, h₃⟩ := h.entry he'
      rw [hgeneration, hchunks]
      exact ⟨h₁, h₂, fun i gen hm => h₃ i gen (hmarks i gen hm)⟩
    · exact h.entry he
  · rw [hl, he]
    split
    · exact ⟨f e, rfl, by rw [(hf e).2.1]⟩
    · exact ⟨e, rfl, rfl⟩

omit h in
theorem exists_chunkSize (chunkSize : Nat) :
    ∃ cs, cs ≠ 0 ∧ ∀ (c : NodeCache) (inode chunkIdx totalSize : Nat) (data : List UInt8) (gen now : Nat),
      c.putChunk inode chunkIdx chunkSize totalSize data gen now = c.putChunk inode chunkIdx cs totalSize data gen now := by
  by_cases hz : chunkSize = 0
  · refine ⟨defaultChunkSize, defaultChunkSize_ne_zero, fun c inode chunkIdx totalSize data gen now => ?_⟩
    subst hz
    simp only [putChunk, if_true, defaultChunkSize_ne_zero, if_false]
  · exact ⟨chunkSize, hz, fun _ _ _ _ _ _ _ => rfl⟩

theorem Wf.advances_putChunk {chunkIdx chunkSize totalSize : Nat} {data : List UInt8} {gen : Nat}
    (hgen : gen ≤ c.curGen) : c.Advances event (c.putChunk inode chunkIdx chunkSize totalSize data gen now) := by
  obtain ⟨cs, hcs, hput⟩ := exists_chunkSize chunkSize
  rw [hput]
  have hlookup := c.lookup_putChunk inode chunkIdx hcs totalSize data gen now
  refine ⟨le_of_eq (putChunk_curGen ..).symm, fun inode' e he => ?_, fun inode' i hm => .inr ?_⟩
  · rw [putChunk_curGen]
    obtain hkept | ⟨rfl, hle, -, hl⟩ := hlookup inode'
    · exact h.entry (hkept.of_some he)
    rw [hl, some.injEq] at he
    subst he
    cases hold : c.entries.lookup inode' with
    | some old =>
      rw [entryFor_of_some hold]
      obtain ⟨h₁, h₂, h₃⟩ := h.entry hold
      refine ⟨h₁, h₂, fun i g hm => ?_⟩
      obtain ⟨hchunk, hmark⟩ := h₃ i g hm
      refine ⟨?_, hmark⟩
      show ((old.chunks.insert chunkIdx _).lookup i).isSome
      rw [lookup_insert]
      split
      · rfl
      · exact hchunk
    | none =>
      -- the new entry has the generation of the request, which no local change has overtaken
      rw [entryFor_of_none hold]
      exact ⟨hle, hgen, nofun⟩
  · obtain hkept | ⟨rfl, -, hkeeps, hl⟩ := hlookup inode'
    · exact h.stays_of_kept hm hkept
    · refine h.stays hm fun e g hold hmark => ⟨_, hl, ?_⟩
      rw [entryFor_of_some hold] at hkeeps ⊢
      -- a chunk that is dirty is not filled
      refine AList.lookup_insert_ne fun heq => hkeeps (.inl ?_)
      rw [← heq, hmark]
      rfl

/-- A local change gives its entry the next generation, which is over all that were handed out;
the marks are those of before, or carry it as well. -/
theorem Wf.advances_of_local (hgen : c'.curGen = c.curGen + 1)
    (hother : ∀ inode', inode' ≠ inode → Kept (c.entries.lookup inode') (c'.entries.lookup inode'))
    (hown : ∀ e, c'.entries.lookup inode = some e → e.generation = c.curGen + 1 ∧
      ∀ i gen, e.dirtyChunks.lookup i = some gen →
        (e.chunks.lookup i).isSome ∧ (c.markAt inode i = some gen ∨ gen = c.curGen + 1))
    (hstays : ∀ i, (c.markAt inode i).isSome → event.Cuts inode ∨ Stays event c c' inode i) :
    c.Advances event c' ∧ c.curGen < c'.getGeneration inode := by
  refine ⟨⟨by omega, fun inode' e he => ?_, fun inode' i hm => ?_⟩, ?_⟩
  · by_cases heq : inode' = inode
    · subst heq
      obtain ⟨hg, hmarks⟩ := hown e he
      have hle := h.getGeneration_le inode'
      refine ⟨by omega, by omega, fun i gen hm => ?_⟩
      exact ⟨(hmarks i gen hm).1, (hmarks i gen hm).2.imp_right (by omega)⟩
    · obtain ⟨h₁, h₂, h₃⟩ := h.entry ((hother inode' heq).of_some he)
      refine ⟨h₁, by omega, fun i gen hm => ?_⟩
      exact ⟨(h₃ i gen hm).1, (h₃ i gen hm).2.imp_right (by omega)⟩
  · by_cases heq : inode' = inode
    · subst heq
      exact hstays i hm
    · exact .inr (h.stays_of_kept hm (hother inode' heq))
  · cases hl : c'.entries.lookup inode with
    | none => rw [getGeneration_of_none hl]; omega
    | some e => rw [getGeneration_of_some hl, (hown e hl).1]; omega

omit h in
theorem writeAt_lookup_self {offset : Nat} {data : List UInt8} {e : CachedEntry}
    (he : (c.writeAt inode offset data now).entries.lookup inode = some e) : e = c.written inode offset data now := by
  have hkept := (c.lookup_writeAt inode offset data now inode).of_some he
  rw [if_pos rfl, some.injEq] at hkept
  exact hkept.symm

theorem Wf.writeBase {i gen : Nat} (hm : (c.writeBase inode now).dirtyChunks.lookup i = some gen) :
    ((c.writeBase inode now).chunks.lookup i).isSome ∧ c.markAt inode i = some gen := by
  unfold NodeCache.writeBase at hm ⊢
  cases hl : c.entries.lookup inode with
  | none => rw [hl] at hm; cases hm
  | some e =>
    rw [hl] at hm
    exact ⟨(h.marks inode e i gen hl hm).2, (markAt_of_lookup hl).trans hm⟩

theorem Wf.advances_writeAt (inode offset : Nat) (data : List UInt8) (now : Nat) :
    c.Advances (.writeAt inode offset data now) (c.writeAt inode offset data now) ∧
      c.curGen < (c.writeAt inode offset data now).getGeneration inode := by
  have hkept := c.lookup_writeAt inode offset data now
  refine h.advances_of_local (writeAt_curGen ..) (fun inode' hne => ?_) (fun e he => ?_) fun i hm => .inr ?_
  · have := hkept inode'
    rwa [if_neg hne] at this
  · obtain rfl := writeAt_lookup_self he
    refine ⟨rfl, fun i gen hm => ?_⟩
    rw [lookup_write_chunks]
    rw [lookup_write_marks] at hm
    split_ifs at hm ⊢
    · exact ⟨rfl, .inr (some.inj hm).symm⟩
    · exact (h.writeBase hm).imp_right .inl
  · obtain ⟨gen, hgen⟩ := isSome_iff_exists.mp hm
    obtain ⟨e, hl, hmark⟩ := bind_eq_some_iff.mp hgen
    obtain ⟨chunk, hchunk⟩ := isSome_iff_exists.mp (h.marks inode e i gen hl hmark).2
    refine ⟨chunk, (chunkAt_of_lookup hl).trans hchunk, .inr ⟨rfl, ?_⟩⟩
    have hbase : c.writeBase inode now = e := by
      rw [NodeCache.writeBase, hl]
      rfl
    have hself := hkept inode
    rw [if_pos rfl, NodeCache.written, hbase] at hself
    have hnew : ∃ g, (e.write offset data (c.curGen + 1) now).dirtyChunks.lookup i = some g := by
      rw [lookup_write_marks]
      split
      · exact ⟨_, rfl⟩
      · exact ⟨gen, hmark⟩
    obtain ⟨g, hg⟩ := hnew
    rw [chunkAt_of_lookup (hself.of_dirty rfl (.of_mark hg)), lookup_write_chunks]
    split
    · rfl
    · rw [hchunk]
      rfl

theorem Wf.advances_truncate (inode size now : Nat) :
    c.Advances (.truncate inode size now) (c.truncate inode size now).1 ∧
      c.curGen < (c.truncate inode size now).1.getGeneration inode := by
  refine h.advances_of_local (truncate_curGen ..) (fun inode' hne => ?_) (fun e he => ?_) fun i _ => .inl rfl
  · rw [lookup_truncate, if_neg hne]
    exact .refl _
  · rw [lookup_truncate, if_pos rfl, some.injEq] at he
    cases hold : c.entries.lookup inode with rw [hold] at he
    | none =>
      subst he
      exact ⟨rfl, nofun⟩
    | some old =>
      subst he
      refine ⟨rfl, fun i gen hm => ?_⟩
      simp only [CachedEntry.truncate, lookup_select, decide_eq_true_eq] at hm
      split at hm
      case isFalse => cases hm
      case isTrue hlt =>
        obtain ⟨chunk, hchunk⟩ := isSome_iff_exists.mp (h.marks inode old i gen hold hm).2
        refine ⟨?_, .inl ((markAt_of_lookup hold).trans hm)⟩
        simp only [CachedEntry.truncate, lookup_filterMap, hchunk, bind_some]
        rw [if_neg (by omega)]
        split <;> rfl

theorem Wf.advances_punchHole (inode offset length : Nat) (keepSize : Bool) (now : Nat) :
    c.Advances (.punchHole inode offset length keepSize now) (c.punchHole inode offset length keepSize now).1 ∧
      c.curGen < (c.punchHole inode offset length keepSize now).1.getGeneration inode := by
  refine h.advances_of_local (punchHole_curGen ..) (fun inode' hne => ?_) (fun e he => ?_) fun i _ => .inl rfl
  · rw [lookup_punchHole, if_neg hne]
    exact .refl _
  · rw [lookup_punchHole, if_pos rfl] at he
    obtain ⟨old, hold, rfl⟩ := map_eq_some_iff.mp he
    refine ⟨rfl, fun i gen hm => ?_⟩
    simp only [CachedEntry.punchHole] at hm ⊢
    generalize old.punchEnd offset length keepSize = punchEnd at hm ⊢
    by_cases hempty : offset < punchEnd
    · rw [if_pos hempty, lookup_select] at hm
      rw [if_pos hempty, lookup_filterMap]
      split at hm
      case isFalse => cases hm
      case isTrue hcover =>
        obtain ⟨chunk, hchunk⟩ := isSome_iff_exists.mp (h.marks inode old i gen hold hm).2
        refine ⟨?_, .inl ((markAt_of_lookup hold).trans hm)⟩
        simp only [hchunk, isSome_some, true_and, decide_eq_true_eq] at hcover
        simp only [hchunk, bind_some, punchChunk, hm, isSome_some, if_true]
        rw [if_neg hcover]
        split <;> rfl
    · rw [if_neg hempty] at hm
      rw [if_neg hempty]
      exact ⟨(h.marks inode old i gen hold hm).2, .inl ((markAt_of_lookup hold).trans hm)⟩

end

end NodeCache

/-! Runs. -/

structure CacheInv (s : CacheState) : Prop where
  wf : s.cache.Wf
  reads : ∀ r ∈ s.reads, r.readGen ≤ s.cache.curGen ∧ (r.overtaken = true → r.readGen < s.cache.getGeneration r.inode)
  pushes : ∀ p ∈ s.pushes, ∀ i gen, p.gens.lookup i = some gen →
    gen ≤ s.cache.curGen ∧ (i ∈ p.rewritten → ∀ mark, s.cache.markAt p.inode i = some mark → gen < mark)

namespace CacheInv

theorem start (maxBytes : Int) : CacheInv (.start maxBytes) where
  wf := ⟨fun _ _ h => (by cases h), fun _ _ _ _ h => (by cases h)⟩
  reads _ h := by cases h
  pushes _ h := by cases h

variable {s : CacheState} {event : CacheEvent}

theorem advance (h : CacheInv s) {cache : NodeCache} (ha : s.cache.Advances event cache) : CacheInv { s with cache } where
  wf := ha.wf h.wf
  reads r hr := by
    obtain ⟨hle, hover⟩ := h.reads r hr
    exact ⟨le_trans hle ha.curGen, fun ho => lt_of_lt_of_le (hover ho) (ha.getGeneration_le h.wf r.inode)⟩
  pushes p hp i gen hgen := by
    obtain ⟨hle, hnew⟩ := h.pushes p hp i gen hgen
    refine ⟨le_trans hle ha.curGen, fun hi mark hm => ?_⟩
    obtain hold | hlt := ha.markAt hm
    · exact hnew hi mark hold
    · exact lt_of_le_of_lt hle hlt

/-- A local change overtakes the reads of its inode. -/
theorem changed (h : CacheInv s) {inode : Nat} {cache : NodeCache} (ha : s.cache.Advances event cache)
    (hlt : s.cache.curGen < cache.getGeneration inode) : CacheInv (s.changed inode cache) where
  wf := ha.wf h.wf
  reads r hr := by
    obtain ⟨r', hr', rfl⟩ := mem_map.mp hr
    have hold := (h.advance ha).reads r' hr'
    unfold IssuedRead.overtake
    split
    case isTrue heq =>
      refine ⟨hold.1, fun _ => ?_⟩
      rw [heq]
      exact lt_of_le_of_lt (h.reads r' hr').1 hlt
    case isFalse => exact hold
  pushes := (h.advance ha).pushes

/-- A write marks its chunks with a generation over those of every copy. -/
theorem rewritten (h : CacheInv s) (inode offset : Nat) (data : List UInt8) (now : Nat) :
    CacheInv { s.changed inode (s.cache.writeAt inode offset data now) with
      pushes := s.pushes.map (·.rewrite inode
        (chunkRange (s.cache.writeBase inode now).chunkSizeOf offset (offset + data.length))) } where
  wf := (h.wf.advances_writeAt inode offset data now).1.wf h.wf
  reads := (h.changed (h.wf.advances_writeAt ..).1 (h.wf.advances_writeAt ..).2).reads
  pushes := by
    have ha := (h.wf.advances_writeAt inode offset data now).1
    intro p hp i gen hgen
    obtain ⟨p', hp', rfl⟩ := mem_map.mp hp
    unfold IssuedPush.rewrite at hgen ⊢
    by_cases heq : p'.inode = inode
    · rw [if_pos heq] at hgen ⊢
      obtain ⟨hle, hnew⟩ := (h.advance ha).pushes p' hp' i gen hgen
      refine ⟨hle, fun hi mark hm => ?_⟩
      obtain hbefore | htouched := mem_append.mp hi
      · exact hnew hbefore mark hm
      obtain ⟨e, hl, hmark⟩ := bind_eq_some_iff.mp hm
      rw [show p'.inode = inode from heq] at hl
      rw [writeAt_lookup_self hl, lookup_write_marks, if_pos htouched, some.injEq] at hmark
      have hgen' := (h.pushes p' hp' i gen hgen).1
      omega
    · rw [if_neg heq] at hgen ⊢
      exact (h.advance ha).pushes p' hp' i gen hgen

theorem step (h : CacheInv s) {e : CacheEvent} {s' : CacheState} (hs : s.step e = some s') :
    s.cache.Advances e s'.cache ∧ CacheInv s' := by
  have hsame : s.cache.Advances e s.cache := h.wf.advances_of_sheds (.refl _)
  have hadvance : ∀ {cache : NodeCache}, s.cache.Advances e cache → s.cache.Advances e cache ∧ CacheInv { s with cache } :=
    fun ha => ⟨ha, h.advance ha⟩
  cases e with simp only [CacheState.step] at hs
  | writeAt inode offset data now =>
    cases hs
    exact ⟨(h.wf.advances_writeAt ..).1, h.rewritten inode offset data now⟩
  | truncate inode size now =>
    cases hs
    obtain ⟨ha, hlt⟩ := h.wf.advances_truncate inode size now
    exact ⟨ha, h.changed ha hlt⟩
  | punchHole inode offset length keepSize now =>
    cases hs
    obtain ⟨ha, hlt⟩ := h.wf.advances_punchHole inode offset length keepSize now
    exact ⟨ha, h.changed ha hlt⟩
  | getGeneration inode =>
    cases hs
    refine ⟨hsame, h.wf, fun r hr => ?_, h.pushes⟩
    obtain hold | hnew := mem_append.mp hr
    · exact h.reads r hold
    · obtain rfl := mem_singleton.mp hnew
      exact ⟨h.wf.getGeneration_le inode, nofun⟩
  | putChunk read chunkIdx chunkSize totalSize data now =>
    split at hs <;> cases hs
    rename_i r hr
    exact hadvance (h.wf.advances_putChunk (h.reads r (mem_of_getElem? hr)).1)
  | getDirtyChunks inode =>
    split at hs
    · cases hs
      exact ⟨hsame, h⟩
    · next d hd =>
      obtain ⟨entry, hl, rfl⟩ := of_getDirtyChunks hd
      cases hs
      refine ⟨hsame, h.wf, h.reads, forall_mem_append.mpr ⟨h.pushes, forall_mem_singleton.mpr fun i gen hgen => ?_⟩⟩
      simp only [CachedEntry.getDirtyChunks, lookup_select] at hgen
      split at hgen
      case isFalse => cases hgen
      case isTrue => exact ⟨(h.wf.marks inode entry i gen hl hgen).1, nofun⟩
  | markChunkClean push chunkIdx =>
    split at hs
    · cases hs
    split at hs <;> cases hs
    apply hadvance
    apply h.wf.advances_of_modify (modifyEntry_curGen ..) (lookup_modifyEntry _ _ _)
    intro e
    refine ⟨markChunkClean_generation .., markChunkClean_chunks .., fun i g hm => ?_⟩
    rw [lookup_markChunkClean] at hm
    split at hm
    · cases hm
    · exact hm
  | markSizeClean inode gen =>
    cases hs
    apply hadvance
    apply h.wf.advances_of_modify (modifyEntry_curGen ..) (lookup_modifyEntry _ _ _)
    intro e
    refine ⟨markSizeClean_generation .., markSizeClean_chunks .., fun i g hm => ?_⟩
    rwa [markSizeClean_dirtyChunks] at hm
  | touch inode now =>
    cases hs
    apply hadvance
    apply h.wf.advances_of_modify (touch_curGen ..) (lookup_touch _ _ _)
    exact fun e => ⟨rfl, rfl, fun _ _ hm => hm⟩
  | evict neededBytes =>
    cases hs
    exact hadvance (h.wf.advances_of_sheds (sheds_evictIfNeededLocked ..))
  | invalidateIfNotDirty inode =>
    cases hs
    exact hadvance (h.wf.advances_of_sheds (sheds_invalidateIfNotDirty ..))
  | invalidateAllClean =>
    cases hs
    exact hadvance (h.wf.advances_of_sheds (sheds_invalidateAllClean _))

end CacheInv

/-! What a step does not do. -/

/-- The step from `s` to `s'` overrides no newer local change. -/
structure CompletionOrdered (s : CacheState) (e : CacheEvent) (s' : CacheState) : Prop where
  /-- a reply that was overtaken changes nothing -/
  replies : ∀ read chunkIdx chunkSize totalSize data now r, e = .putChunk read chunkIdx chunkSize totalSize data now →
    s.reads[read]? = some r → r.overtaken = true → s'.cache = s.cache
  /-- an acknowledgement leaves the mark of a chunk that was written since -/
  acks : ∀ push chunkIdx p, e = .markChunkClean push chunkIdx → s.pushes[push]? = some p → chunkIdx ∈ p.rewritten →
    s'.cache.markAt p.inode chunkIdx = s.cache.markAt p.inode chunkIdx
  /-- a dirty chunk stays in the cache, and only a write changes its bytes -/
  stays : ∀ inode i, (s.cache.markAt inode i).isSome → e.Cuts inode ∨
    ∃ chunk, s.cache.chunkAt inode i = some chunk ∧
      (s'.cache.chunkAt inode i = some chunk ∨ e.Writes inode ∧ (s'.cache.chunkAt inode i).isSome)

/-- Every step that a run of the cache can take, from an empty cache of any capacity. -/
theorem completions_ordered (maxBytes : Int) {s : CacheState}
    (hreach : Reach (· = .start maxBytes) CacheState.step always s) {e : CacheEvent} {s' : CacheState}
    (hs : s.step e = some s') : CompletionOrdered s e s' := by
  have h : CacheInv s := by
    apply hreach.inv (I := CacheInv)
    · intro s₀ hstart
      exact hstart ▸ CacheInv.start maxBytes
    · intro s₁ e₁ s₂ h₁ _ hstep
      exact (h₁.step hstep).2
  refine ⟨?_, ?_, (h.step hs).1.stays⟩
  · intro read chunkIdx chunkSize totalSize data now r he hr hover
    subst he
    simp only [CacheState.step, hr, some.injEq] at hs
    subst hs
    exact putChunk_of_lt ((h.reads r (mem_of_getElem? hr)).2 hover)
  · intro push chunkIdx p he hp hrewritten
    subst he
    simp only [CacheState.step, hp] at hs
    split at hs <;> cases hs
    rename_i gen hgen
    have hnew := (h.pushes p (mem_of_getElem? hp) chunkIdx gen hgen).2 hrewritten
    show markAt p.inode chunkIdx (s.cache.modifyEntry p.inode _) = _
    rw [markAt, lookup_modifyEntry, if_pos rfl, markAt]
    cases hl : s.cache.entries.lookup p.inode with
    | none => rfl
    | some entry =>
      show (entry.markChunkClean chunkIdx gen).dirtyChunks.lookup chunkIdx = entry.dirtyChunks.lookup chunkIdx
      rw [lookup_markChunkClean, if_neg]
      rintro ⟨-, mark, hle, hm⟩
      have hlt := hnew mark ((markAt_of_lookup hl).trans hm)
      omega

/-- A read is issued, the file is written, and the reply comes with the bytes of before. -/
theorem overtaken_reply_dropped :
    ∃ s s' r, exec CacheState.step (.start 0) [.getGeneration 7, .writeAt 7 0 [1] 0] = some s ∧
      s.step (.putChunk 0 0 defaultChunkSize 1 [9] 0) = some s' ∧ s.reads[0]? = some r ∧ r.overtaken = true ∧
      s'.cache = s.cache := by
  have hexec : ∃ s, exec CacheState.step (.start 0) [.getGeneration 7, .writeAt 7 0 [1] 0] = some s ∧
      ∃ r, s.reads[0]? = some r ∧ r.overtaken = true := ⟨_, rfl, _, rfl, rfl⟩
  obtain ⟨s, hs, r, hr, hover⟩ := hexec
  have hstep : s.step (.putChunk 0 0 defaultChunkSize 1 [9] 0) =
      some { s with cache := s.cache.putChunk r.inode 0 defaultChunkSize 1 [9] r.readGen 0 } := by
    simp only [CacheState.step, hr]
  exact ⟨s, _, r, hs, hstep, hr, hover,
    (completions_ordered 0 (.of_exec rfl hs) hstep).replies 0 0 defaultChunkSize 1 [9] 0 r rfl hr hover⟩

/-- **A mark has its chunk.** In every run, whatever is evicted or invalidated, a chunk that is
marked dirty is in the cache, and no generation is ahead of the counter. -/
theorem marks_cached (maxBytes : Int) (events : List CacheEvent) :
    Throughout CacheState.step (fun s => s.cache.Wf) (.start maxBytes) events :=
  throughout_of_inv (I := CacheInv) (fun _ h => h.wf) (fun _ _ _ h hs => (h.step hs).2) (.start maxBytes) events

end InClusterStorage.Node
