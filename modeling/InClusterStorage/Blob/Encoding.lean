import InClusterStorage.Lib.Frame

/- Blobs as they are stored, and a file that is cut into chunks.

   The compression, its decision and the digest are parameters (`Primitives`): that what was
   compressed can be decompressed, and that a digest has 32 bytes, is all that is used of them.

   `chunkBlobs_roundTrip`: the chunks of `ChunkBlobs` decode to the input, in order and of the
   right number and lengths, and the manifest is read back. -/
namespace InClusterStorage.Blob

open Frame List

/-- `compress/zlib`, the comparison of the savings, and `crypto/sha256`. -/
structure Primitives where
  compress : List UInt8 → List UInt8
  decompress : List UInt8 → Option (List UInt8)
  decompress_compress : ∀ data, decompress (compress data) = some data
  worth : Nat → Nat → Bool
  sha256 : List UInt8 → List UInt8
  length_sha256 : ∀ data, (sha256 data).length = 32

def encodingRaw : Nat := 0
def encodingCompressed : Nat := 1
def encodingChunked : Nat := 2

/-- `StoredLength` is the length of the stored bytes. -/
structure EncodedBlob where
  stored : List UInt8
  finalLength : Nat
  sha256 : List UInt8
  encoding : Nat

/-- `binary.BigEndian.Uint32` and the like, of a part of a buffer. -/
def uint (bytes : List UInt8) (lo len : Nat) : Nat := ofBytes ((bytes.drop lo).take len)

/-- `io.ReadFull`: the bytes, and what is left of the stream. -/
def readFull (n : Nat) (r : List UInt8) : Option (List UInt8 × List UInt8) :=
  if n ≤ r.length then some (r.take n, r.drop n) else none

theorem readFull_append {n : Nat} {bytes : List UInt8} (h : bytes.length = n) (rest : List UInt8) :
    readFull n (bytes ++ rest) = some (bytes, rest) := by
  rw [readFull, if_pos (by simp [h]), take_left' h, drop_left' h]

theorem uint_append {head : List UInt8} {lo : Nat} (h : head.length ≤ lo) (rest : List UInt8) (len : Nat) :
    uint (head ++ rest) lo len = uint rest (lo - head.length) len := by
  rw [uint, drop_append, drop_of_length_le h, nil_append, uint]

theorem uint_toBytes {n len : Nat} (h : n < 256 ^ len) (rest : List UInt8) : uint (toBytes len n ++ rest) 0 len = n := by
  rw [uint, drop_zero, take_left' (length_toBytes len n), ofBytes_toBytes h]

namespace Primitives

variable (p : Primitives)

/-- Empty data, and data that the compression does not make smaller by enough, is stored as it is. -/
def encodeBlob (data : List UInt8) (compress : Bool) : EncodedBlob :=
  let raw := { stored := data, finalLength := data.length, sha256 := p.sha256 data, encoding := encodingRaw }
  if compress ∧ data.length ≠ 0 ∧ p.worth data.length (p.compress data).length then
    { raw with stored := p.compress data, encoding := encodingCompressed }
  else raw

/-- `decodePayloadToByteStream`, in memory or through a temporary file. -/
def decodePayload (r : List UInt8) (encoding finalLen : Nat) : Option (List UInt8) :=
  let src :=
    if encoding = encodingCompressed then p.decompress r
    else if encoding ≠ encodingRaw ∧ encoding ≠ encodingChunked then none
    else some r
  src.filter fun data => data.length = finalLen

theorem decodePayload_encodeBlob (data : List UInt8) (compress : Bool) :
    p.decodePayload (p.encodeBlob data compress).stored (p.encodeBlob data compress).encoding
      (p.encodeBlob data compress).finalLength = some data := by
  unfold encodeBlob
  split_ifs <;> simp [decodePayload, encodingRaw, encodingCompressed, p.decompress_compress]

@[simp] theorem encodeBlob_sha256 (data : List UInt8) (compress : Bool) :
    (p.encodeBlob data compress).sha256 = p.sha256 data := by
  unfold encodeBlob
  split_ifs <;> rfl

end Primitives

/-! Manifests. -/

structure Manifest where
  chunkSize : Nat
  totalLength : Nat
  chunks : List (List UInt8)

def manifestHeaderSize : Nat := 24

/-- `EncodeManifest`, which returns the bytes as a blob of its own encoding. -/
def encodeManifest (m : Manifest) : List UInt8 :=
  toBytes 4 m.chunkSize ++ toBytes 4 0 ++ toBytes 8 m.totalLength ++ toBytes 4 m.chunks.length ++ toBytes 4 0 ++
    m.chunks.flatten

def decodeManifest (r : List UInt8) : Option Manifest := do
  let (hdr, r) ← readFull manifestHeaderSize r
  let count := uint hdr 16 4
  let (chunksBuf, _) ← readFull (count * 32) r
  return { chunkSize := uint hdr 0 4, totalLength := uint hdr 8 8
           chunks := (range count).map fun i => (chunksBuf.drop (i * 32)).take 32 }

theorem pieces_flatten {n : Nat} {pieces : List (List UInt8)} (h : ∀ piece ∈ pieces, piece.length = n) :
    (range pieces.length).map (fun i => (pieces.flatten.drop (i * n)).take n) = pieces := by
  induction pieces with
  | nil => rfl
  | cons piece pieces ih =>
    obtain ⟨hpiece, hpieces⟩ := forall_mem_cons.mp h
    rw [length_cons, range_succ_eq_map, map_cons, map_map, flatten_cons]
    congr 1
    · simp [← hpiece]
    · refine (map_congr_left fun i _ => ?_).trans (ih hpieces)
      have hskip : (i + 1) * n = piece.length + i * n := by rw [Nat.succ_mul, hpiece, add_comm]
      rw [Function.comp_apply, Nat.succ_eq_add_one, hskip, ← drop_drop, drop_left]

theorem decodeManifest_encodeManifest {m : Manifest} (hsize : m.chunkSize < 256 ^ 4) (htotal : m.totalLength < 256 ^ 8)
    (hcount : m.chunks.length < 256 ^ 4) (hchunks : ∀ chunk ∈ m.chunks, chunk.length = 32) :
    decodeManifest (encodeManifest m) = some m := by
  have hlen : m.chunks.flatten.length = m.chunks.length * 32 := by
    simp [length_flatten, map_congr_left hchunks]
  have hrest := readFull_append hlen []
  rw [append_nil] at hrest
  rw [decodeManifest, encodeManifest, readFull_append (by simp [manifestHeaderSize])]
  simp [uint_append, uint_toBytes hsize, uint_toBytes htotal, uint_toBytes hcount, hrest, pieces_flatten hchunks]

/-! Chunks. -/

/-- The chunks that the loop of `ChunkBlobs` reads: it ends with a read that is not full. -/
def readChunks (size : Nat) (hsize : 0 < size) (src : List UInt8) : List (List UInt8) :=
  let chunk := src.take size
  if src.length < size then if chunk = [] then [] else [chunk]
  else chunk :: readChunks size hsize (src.drop size)
termination_by src.length
decreasing_by
  rw [length_drop]
  omega

theorem readChunks_spec (size : Nat) (hsize : 0 < size) (src : List UInt8) :
    (readChunks size hsize src).flatten = src ∧
      (readChunks size hsize src).length = (src.length + size - 1) / size ∧
      ∀ i chunk, (readChunks size hsize src)[i]? = some chunk → i + 1 < (readChunks size hsize src).length →
        chunk.length = size := by
  fun_induction readChunks size hsize src with
  | case1 src chunk hshort hnil =>
    obtain rfl : src = [] := by simpa [chunk, hsize.ne'] using hnil
    exact ⟨rfl, (Nat.div_eq_of_lt (by simpa using hsize)).symm, nofun⟩
  | case2 src chunk hshort hne =>
    have hpos : 0 < src.length := length_pos_of_ne_nil fun hnil => hne (by simp [chunk, hnil])
    refine ⟨by simp [chunk, take_of_length_le hshort.le], ?_, fun i chunk' _ hi => absurd hi (by simp)⟩
    exact (Nat.div_eq_of_lt_le (by rw [length_singleton]; omega) (by rw [length_singleton]; omega)).symm
  | case3 src chunk hfull ih =>
    obtain ⟨hflat, hlen, hsizes⟩ := ih
    refine ⟨by rw [flatten_cons, hflat, take_append_drop], ?_, fun i chunk' hi hlt => ?_⟩
    · rw [length_cons, hlen, length_drop, ← Nat.add_div_right _ hsize]
      congr 1
      omega
    · cases i with
      | zero =>
        cases hi
        exact length_take_of_le (Nat.le_of_not_lt hfull)
      | succ i => exact hsizes i chunk' hi (Nat.lt_of_succ_lt_succ hlt)

/-- `ChunkBlobs`: the chunks, and the manifest. -/
def Primitives.chunkBlobs (p : Primitives) (src : List UInt8) (size : Nat) (hsize : 0 < size) (compress : Bool) :
    List EncodedBlob × Manifest :=
  let chunks := readChunks size hsize src
  let blobs := chunks.map (p.encodeBlob · compress)
  (blobs, { chunkSize := size, totalLength := (chunks.map length).sum, chunks := blobs.map (·.sha256) })

/-- **Round trip.** The sizes and the number of chunks are those that fit into 32 bits. -/
theorem chunkBlobs_roundTrip (p : Primitives) (src : List UInt8) {size : Nat} (hsize : 0 < size) (hfits : size < 2 ^ 32)
    (compress : Bool) (hcount : (p.chunkBlobs src size hsize compress).1.length < 2 ^ 32) :
    ∃ chunks : List (List UInt8),
      (p.chunkBlobs src size hsize compress).1.map (fun b => p.decodePayload b.stored b.encoding b.finalLength) =
        chunks.map some ∧
      chunks.flatten = src ∧ chunks.length = (src.length + size - 1) / size ∧
      (∀ (i : Nat) chunk, chunks[i]? = some chunk → i + 1 < chunks.length → chunk.length = size) ∧
      decodeManifest (encodeManifest (p.chunkBlobs src size hsize compress).2) =
        some { chunkSize := size, totalLength := src.length, chunks := chunks.map p.sha256 } := by
  obtain ⟨hflat, hlen, hsizes⟩ := readChunks_spec size hsize src
  have htotal : ((readChunks size hsize src).map length).sum = src.length := by
    rw [← length_flatten, hflat]
  have hlt : src.length < 2 ^ 64 := by
    simp only [Primitives.chunkBlobs, length_map, hlen] at hcount
    have hle := Nat.lt_mul_div_succ (src.length + size - 1) hsize
    calc src.length ≤ size * ((src.length + size - 1) / size) := by rw [Nat.mul_add] at hle; omega
      _ < 2 ^ 32 * 2 ^ 32 := Nat.mul_lt_mul'' hfits hcount
  refine ⟨readChunks size hsize src, ?_, hflat, hlen, hsizes, ?_⟩
  · rw [Primitives.chunkBlobs, map_map]
    exact map_congr_left fun chunk _ => p.decodePayload_encodeBlob chunk compress
  · rw [decodeManifest_encodeManifest hfits (by simpa [Primitives.chunkBlobs, htotal] using hlt)]
    · simp [Primitives.chunkBlobs, htotal]
    · simpa [Primitives.chunkBlobs] using hcount
    · simp [Primitives.chunkBlobs, p.length_sha256]

/-- SHA-256 of three chunks. -/
def digest : List UInt8 → Nat
  | [1, 2] => 0xa12871fee210fb8619291eaea194581cbd2531e4b23759d225f6806923f63222
  | [3, 4] => 0x0ce3940bebf2b22a5d2108ecf0c368a0541c7e3c45703f8540921b4eafc82947
  | [5] => 0xe77b9a9ae9e30b0dbdb6f510a264ef9de781501d7b6b92ae89eb059c5ab743db
  | _ => 0

/-- Nothing is compressed. -/
def plain : Primitives where
  compress := id
  decompress := some
  decompress_compress := fun _ => rfl
  worth := fun _ _ => false
  sha256 := fun data => toBytes 32 (digest data)
  length_sha256 := fun _ => length_toBytes ..

theorem chunkBlobs_roundTrip_uneven :
    ∃ chunks : List (List UInt8), chunks.flatten = [1, 2, 3, 4, 5] ∧ chunks.length = 3 ∧
      decodeManifest (encodeManifest (plain.chunkBlobs [1, 2, 3, 4, 5] 2 (by decide) true).2) =
        some { chunkSize := 2, totalLength := 5, chunks := chunks.map plain.sha256 } := by
  obtain ⟨chunks, -, hflat, hlen, -, hmanifest⟩ := @chunkBlobs_roundTrip plain [1, 2, 3, 4, 5] 2 (by decide)
    (by decide) true (by simp [Primitives.chunkBlobs, (readChunks_spec 2 (by decide) _).2.1])
  exact ⟨chunks, hflat, hlen, hmanifest⟩

end InClusterStorage.Blob
