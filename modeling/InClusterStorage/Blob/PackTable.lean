import InClusterStorage.Blob.Encoding

/- The table of a pack.

   `DecodePackTable` takes the number of slots of a pack of version 2 from its header, and computes
   the size of the table in 32 bits. A slice out of range panics: here the result is `none`.

   1. `decodePackTable_iff`: the table is decoded without a panic, with every entry inside of it, if
      and only if the header does not have the size wrap around below the slots in use (`Wraps`).
   2. `decodePackTable_panics`: a pack of 32 bytes that does not. -/
namespace InClusterStorage.Blob

open Frame List

structure BlobEntry where
  sha256 : List UInt8
  dataOffset : Nat
  storedLength : Nat
  finalLength : Nat := 0
  encoding : Nat := 0
  deriving DecidableEq

structure PackFile where
  version : Nat
  slots : Nat := 0
  flags : Nat := 0
  entries : List BlobEntry

inductive PackError where
  | truncated
  | magic
  | version
  | fileType
  | used
  deriving DecidableEq

def magic : Nat := 0x4F424A42
def fileTypeBlob : Nat := 1
def fileTypePack : Nat := 2
def packV2HeaderSize : Nat := 32
def packV2SlotSize : Nat := 48

/-- `ParseFileHeader`, of eight bytes: the version and the type of the file. -/
def parseFileHeader (data : List UInt8) : Except PackError (Nat × Nat) :=
  let version := uint data 4 1
  let fileType := uint data 5 1
  if uint data 0 4 ≠ magic then .error .magic
  else if version ≠ 1 ∧ version ≠ 2 then .error .version
  else if fileType ≠ fileTypeBlob ∧ fileType ≠ fileTypePack then .error .fileType
  else .ok (version, fileType)

/-- `buf[lo:lo+len]`. -/
def part (buf : List UInt8) (lo len : Nat) : Option (List UInt8) :=
  if lo + len ≤ buf.length then some ((buf.drop lo).take len) else none

/-- An entry of the tables of version 1: the digests, and behind them where each blob starts. -/
def entryV1 (tables : List UInt8) (n i : Nat) : Option BlobEntry := do
  let offsets ← part tables (n * 32 + i * 4) 8
  let sha256 ← part tables (i * 32) 32
  return { sha256, dataOffset := uint offsets 0 4, storedLength := (uint offsets 4 4 + 2 ^ 32 - uint offsets 0 4) % 2 ^ 32 }

def entryV2 (table : List UInt8) (i : Nat) : Option BlobEntry := do
  let slot ← part table (i * packV2SlotSize) packV2SlotSize
  return { sha256 := slot.take 32, dataOffset := uint slot 32 4, storedLength := uint slot 36 4
           finalLength := uint slot 40 4, encoding := uint slot 44 4 }

/-- The rest of the file behind the base header. -/
def decodeV1 (r : List UInt8) : Option (Except PackError PackFile) :=
  match readFull 8 r with
  | none => some (.error .truncated)
  | some (restHdr, r) =>
    let n := uint restHdr 0 4
    if n = 0 then some (.ok { version := 1, entries := [] })
    else match readFull (n * 32 + (n + 1) * 4) r with
      | none => some (.error .truncated)
      | some (tables, _) => do
        let entries ← (range n).mapM (entryV1 tables n)
        return .ok { version := 1, entries }

def decodeV2 (r : List UInt8) : Option (Except PackError PackFile) :=
  match readFull (packV2HeaderSize - 8) r with
  | none => some (.error .truncated)
  | some (restHdr, r) =>
    let slots := uint restHdr 0 4
    let used := uint restHdr 4 4
    if used > slots then some (.error .used)
    -- the product is one of `uint32`
    else match readFull (slots * packV2SlotSize % 2 ^ 32) r with
      | none => some (.error .truncated)
      | some (table, _) => do
        let entries ← (range used).mapM (entryV2 table)
        return .ok { version := 2, slots, flags := uint restHdr 8 4, entries }

def decodePackTable (r : List UInt8) : Option (Except PackError PackFile) :=
  match readFull 8 r with
  | none => some (.error .truncated)
  | some (baseHdr, r) => match parseFileHeader baseHdr with
    | .error err => some (.error err)
    | .ok (version, fileType) =>
      if fileType ≠ fileTypePack then some (.error .fileType)
      else if version = 1 then decodeV1 r
      else decodeV2 r

/-- The loop of `sort.Search`, with a bound on its rounds. -/
def search (f : Nat → Option Bool) : Nat → Nat → Nat → Option Nat
  | rounds, lo, hi =>
    if lo < hi then match rounds with
      | 0 => none
      | rounds + 1 => do
        let mid := (lo + hi) / 2
        if ← f mid then search f rounds lo mid else search f rounds (mid + 1) hi
    else some lo

/-- Digests are compared byte by byte. -/
def PackFile.lookup (p : PackFile) (target : List UInt8) : Option (Option BlobEntry) := do
  let found (i : Nat) : Option Bool := p.entries[i]?.map fun e => target ≤ e.sha256
  let idx ← search found p.entries.length 0 p.entries.length
  return p.entries[idx]?.filter (·.sha256 = target)

theorem search_isSome {f : Nat → Option Bool} {rounds lo hi : Nat} (h : hi ≤ lo + rounds)
    (hf : ∀ i < hi, (f i).isSome) : (search f rounds lo hi).isSome := by
  induction rounds generalizing lo hi with
  | zero => simpa [search] using h
  | succ rounds ih =>
    rw [search]
    split
    case isTrue hlt =>
      obtain ⟨b, hb⟩ := Option.isSome_iff_exists.mp (hf ((lo + hi) / 2) (by omega))
      cases b with
      | true => simpa [hb] using ih (by omega) fun i hi' => hf i (by omega)
      | false => simpa [hb] using ih (by omega) hf
    case isFalse => rfl

theorem PackFile.lookup_isSome (p : PackFile) (target : List UInt8) : (p.lookup target).isSome := by
  have hsearch := search_isSome (f := fun i => p.entries[i]?.map fun e => decide (target ≤ e.sha256))
    (Nat.le_add_left p.entries.length 0) fun i hi => by simp [hi]
  obtain ⟨idx, hidx⟩ := Option.isSome_iff_exists.mp hsearch
  simp [lookup, hidx]

theorem mapM_isSome {α β : Type} {f : α → Option β} {l : List α} : (l.mapM f).isSome ↔ ∀ a ∈ l, (f a).isSome := by
  induction l with
  | nil => simp
  | cons a l ih =>
    rw [mapM_cons, forall_mem_cons, ← ih]
    cases f a <;> simp
    cases l.mapM f <;> simp

theorem length_of_mapM {α β : Type} {f : α → Option β} {l : List α} {l' : List β} (h : l.mapM f = some l') :
    l'.length = l.length := by
  induction l generalizing l' with
  | nil =>
    cases h
    rfl
  | cons a l ih =>
    rw [mapM_cons] at h
    obtain ⟨b, -, h⟩ := Option.bind_eq_some_iff.mp h
    obtain ⟨rest, hrest, h⟩ := Option.bind_eq_some_iff.mp h
    cases h
    rw [length_cons, length_cons, ih hrest]

theorem entryV1_isSome {tables : List UInt8} {n i : Nat} (hn : n * 32 + (n + 1) * 4 = tables.length) (hi : i < n) :
    (entryV1 tables n i).isSome := by
  have hoff : n * 32 + i * 4 + 8 ≤ tables.length := by omega
  have hsha : i * 32 + 32 ≤ tables.length := by omega
  simp [entryV1, part, hoff, hsha]

theorem entriesV2_isSome {table : List UInt8} {used : Nat} :
    ((range used).mapM (entryV2 table)).isSome ↔ used * packV2SlotSize ≤ table.length := by
  have hentry (i : Nat) : (entryV2 table i).isSome ↔ (i + 1) * packV2SlotSize ≤ table.length := by
    rw [entryV2, part, Nat.succ_mul]
    split <;> simp_all
  simp only [mapM_isSome, hentry, mem_range]
  refine ⟨fun h => ?_, fun h i hi => (Nat.mul_le_mul_right _ hi).trans h⟩
  cases used with
  | zero => simp
  | succ used => exact h used (Nat.lt_succ_self used)

theorem uint_take (bytes : List UInt8) {n lo len : Nat} (h : lo + len ≤ n) :
    uint (bytes.take n) lo len = uint bytes lo len := by
  rw [uint, uint, drop_take, take_take, min_eq_left (by omega)]

/-- The entries lie in the table, and the table in the file. -/
def PackFile.Within (p : PackFile) (r : List UInt8) : Prop :=
  let used := p.entries.length
  if p.version = 1 then 16 + used * 36 ≤ r.length
  else
    let size := p.slots * packV2SlotSize % 2 ^ 32
    used ≤ p.slots ∧ used * packV2SlotSize ≤ size ∧ packV2HeaderSize + size ≤ r.length

/-- Behind the base header: the size of the table wraps around, and the slots in use do not fit
into what is left of it. -/
def WrapsV2 (r : List UInt8) : Prop :=
  let size := uint r 0 4 * packV2SlotSize % 2 ^ 32
  uint r 4 4 ≤ uint r 0 4 ∧ 24 + size ≤ r.length ∧ size < uint r 4 4 * packV2SlotSize

def Wraps (r : List UInt8) : Prop := parseFileHeader (r.take 8) = .ok (2, fileTypePack) ∧ WrapsV2 (r.drop 8)

theorem decodeV1_spec (r : List UInt8) : ∃ result, decodeV1 r = some result ∧
    ∀ p, result = .ok p → p.version = 1 ∧ 8 + p.entries.length * 36 ≤ r.length := by
  unfold decodeV1 readFull
  split_ifs with hhdr
  · dsimp only
    split_ifs with hn htables
    · exact ⟨_, rfl, fun p hp => by cases hp; simpa using hhdr⟩
    · have htables' := length_take_of_le htables
      generalize (take (uint (take 8 r) 0 4 * 32 + (uint (take 8 r) 0 4 + 1) * 4) (drop 8 r)) = tables at htables'
      obtain ⟨entries, hentries⟩ := Option.isSome_iff_exists.mp (mapM_isSome.mpr fun i hi =>
        entryV1_isSome htables'.symm (mem_range.mp hi))
      refine ⟨.ok { version := 1, entries }, by simp [hentries], fun p hp => ?_⟩
      cases hp
      have hlen := length_of_mapM hentries
      rw [length_range] at hlen
      rw [length_drop] at htables
      refine ⟨rfl, ?_⟩
      show 8 + entries.length * 36 ≤ _
      omega
    · exact ⟨_, rfl, nofun⟩
  · exact ⟨_, rfl, nofun⟩

theorem decodeV2_spec (r : List UInt8) : (decodeV2 r = none ↔ WrapsV2 r) ∧
    ∀ p, decodeV2 r = some (.ok p) → p.version = 2 ∧ p.entries.length ≤ p.slots ∧
      p.entries.length * packV2SlotSize ≤ p.slots * packV2SlotSize % 2 ^ 32 ∧
      24 + p.slots * packV2SlotSize % 2 ^ 32 ≤ r.length := by
  have hfield (lo : Nat) (h : lo ≤ 20) : uint (r.take 24) lo 4 = uint r lo 4 := uint_take r (by omega)
  unfold decodeV2 readFull packV2HeaderSize WrapsV2
  split_ifs with hhdr
  · simp only [Nat.reduceSub, hfield 0, hfield 4, zero_le, Nat.reduceLeDiff, length_drop]
    split_ifs with hused htable
    · simp
      omega
    · have htable' := length_take_of_le (htable.trans_eq length_drop.symm)
      generalize take (uint r 0 4 * packV2SlotSize % 2 ^ 32) (drop 24 r) = table at htable'
      dsimp only
      have hsome := @entriesV2_isSome table (uint r 4 4)
      cases hentries : (range (uint r 4 4)).mapM (entryV2 table) with
      | none =>
        simp [hentries] at hsome ⊢
        omega
      | some entries =>
        have hlen := (length_of_mapM hentries).trans length_range
        simp [hentries, hlen] at hsome ⊢
        omega
    · simp
      omega
  · simp
    omega

theorem parseFileHeader_version {data : List UInt8} {version fileType : Nat}
    (h : parseFileHeader data = .ok (version, fileType)) : version = 1 ∨ version = 2 := by
  simp only [parseFileHeader] at h
  split_ifs at h with hmagic hversion htype
  cases h
  omega

/-- **Decoding.** -/
theorem decodePackTable_iff (r : List UInt8) :
    (∃ result, decodePackTable r = some result ∧
        ∀ p, result = .ok p → p.Within r ∧ ∀ target, (p.lookup target).isSome) ↔ ¬ Wraps r := by
  unfold decodePackTable readFull Wraps
  split_ifs with hlen
  · dsimp only
    cases hhdr : parseFileHeader (take 8 r) with
    | error err => simp
    | ok hdr =>
      obtain ⟨version, fileType⟩ := hdr
      have hversion := parseFileHeader_version hhdr
      dsimp only
      split_ifs with htype hone
      · simp [htype]
      · obtain ⟨result, hresult, hok⟩ := decodeV1_spec (r.drop 8)
        have hfine (p : PackFile) (hp : result = .ok p) : p.Within r := by
          obtain ⟨hp, hentries⟩ := hok p hp
          rw [length_drop] at hentries
          rw [PackFile.Within, if_pos hp]
          omega
        simpa [hresult, hone, PackFile.lookup_isSome] using hfine
      · obtain rfl : version = 2 := by omega
        obtain rfl : fileType = fileTypePack := by omega
        obtain ⟨hnone, hok⟩ := decodeV2_spec (r.drop 8)
        cases hresult : decodeV2 (r.drop 8) with
        | none => simpa [hresult] using hnone
        | some result =>
          have hfine (p : PackFile) (hp : result = .ok p) : p.Within r := by
            obtain ⟨hp, hused, hentries, htable⟩ := hok p (by rw [hresult, hp])
            rw [length_drop] at htable
            rw [PackFile.Within, if_neg (by omega), packV2HeaderSize]
            exact ⟨hused, hentries, by omega⟩
          simpa [hresult, ← hnone, PackFile.lookup_isSome] using hfine
  · simp [WrapsV2]
    omega

/-- 2^28 slots of 48 bytes are three times 2^32 bytes. -/
def wrapping : List UInt8 :=
  toBytes 4 magic ++ [2, 2, 0, 0] ++ toBytes 4 (2 ^ 28) ++ toBytes 4 1 ++ replicate 16 0

theorem decodePackTable_panics : decodePackTable wrapping = none ∧ Wraps wrapping := by
  unfold Wraps WrapsV2
  decide

end InClusterStorage.Blob
