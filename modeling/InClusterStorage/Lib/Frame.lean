import Mathlib.Data.List.Basic
import Mathlib.Tactic.Ring

/- Checksummed frames in a byte stream. A frame is a four-byte magic, fields of a
   fixed size, the length of the payload, a checksum, and the payload:

     magic | fields | length (4, big endian) | checksum (4, big endian) | payload

   The checksum is taken over the frame with the checksum field zeroed. A
   `Format` says how the fields of a record are laid out; encoding, decoding and
   the scan of a whole stream follow from it. The scan stops at the first frame
   that does not decode and returns the bytes it left, so a stream that ends in a
   part of a frame scans to the complete frames before it (`scan_encode`). -/
namespace Frame

open List

/-- The `k` low bytes of `n`, the highest first. -/
def toBytes : Nat → Nat → List UInt8
  | 0, _ => []
  | k + 1, n => toBytes k (n / 256) ++ [UInt8.ofNat n]

def ofBytes (bytes : List UInt8) : Nat := bytes.foldl (fun n b => n * 256 + b.toNat) 0

@[simp] theorem length_toBytes (k n : Nat) : (toBytes k n).length = k := by
  induction k generalizing n with
  | zero => rfl
  | succ k ih => simp [toBytes, ih]

theorem ofBytes_toBytes {k n : Nat} (h : n < 256 ^ k) : ofBytes (toBytes k n) = n := by
  induction k generalizing n with
  | zero => simp only [pow_zero, Nat.lt_one_iff] at h; simp [toBytes, ofBytes, h]
  | succ k ih =>
    have hdiv : n / 256 < 256 ^ k := by
      rw [Nat.div_lt_iff_lt_mul (by decide)]
      rwa [pow_succ] at h
    have hlast : ofBytes (toBytes (k + 1) n) = ofBytes (toBytes k (n / 256)) * 256 + n % 256 := by
      simp [ofBytes, toBytes]
    rw [hlast, ih hdiv, Nat.div_add_mod']

/-- The layout of a record type. -/
structure Format (α : Type*) where
  magic : List UInt8
  fieldsSize : Nat
  fields : α → List UInt8
  payload : α → List UInt8
  make : List UInt8 → List UInt8 → α
  checksum : List UInt8 → Nat
  /-- the record can be written and read back: its fields and its length fit -/
  Fits : α → Prop
  magic_length : magic.length = 4
  fields_length : ∀ r, (fields r).length = fieldsSize
  payload_lt : ∀ r, Fits r → (payload r).length < 256 ^ 4
  make_fields : ∀ r, Fits r → make (fields r) (payload r) = r
  checksum_lt : ∀ bytes, checksum bytes < 256 ^ 4

inductive DecodeError where
  | eof
  | truncated
  | corrupted
  | checksum
  deriving DecidableEq, Repr

namespace Format

variable {α : Type*} (f : Format α)

def headerSize : Nat := 4 + f.fieldsSize + 8

/-- The header of a record with the given checksum. -/
def header (r : α) (crc : Nat) : List UInt8 :=
  f.magic ++ f.fields r ++ toBytes 4 (f.payload r).length ++ toBytes 4 crc

def computeChecksum (r : α) : Nat := f.checksum (f.header r 0 ++ f.payload r)

def encode (r : α) : List UInt8 := f.header r (f.computeChecksum r) ++ f.payload r

/-- Read one record, and return it with the bytes behind it. -/
def decode (bytes : List UInt8) : Except DecodeError (α × List UInt8) :=
  if bytes = [] then .error .eof
  else if bytes.length < f.headerSize then .error .truncated
  else if bytes.take 4 ≠ f.magic then .error .corrupted
  else
    let fields := (bytes.drop 4).take f.fieldsSize
    let length := ofBytes ((bytes.drop (4 + f.fieldsSize)).take 4)
    let expected := ofBytes ((bytes.drop (4 + f.fieldsSize + 4)).take 4)
    let body := bytes.drop f.headerSize
    if body.length < length then .error .truncated
    else
      let r := f.make fields (body.take length)
      if f.computeChecksum r ≠ expected then .error .checksum
      else .ok (r, body.drop length)

/-- Read records until one does not decode; return them and the bytes left. -/
def scan : Nat → List UInt8 → List α × List UInt8
  | 0, bytes => ([], bytes)
  | n + 1, bytes =>
    match f.decode bytes with
    | .error _ => ([], bytes)
    | .ok (r, rest) => (r :: (scan n rest).1, (scan n rest).2)

/-- The scan of all of the bytes: each record takes at least one. -/
def scanAll (bytes : List UInt8) : List α × List UInt8 := f.scan bytes.length bytes

@[simp] theorem length_header (r : α) (crc : Nat) : (f.header r crc).length = f.headerSize := by
  simp only [header, headerSize, length_append, f.magic_length, f.fields_length, length_toBytes]

@[simp] theorem length_encode (r : α) : (f.encode r).length = f.headerSize + (f.payload r).length := by
  simp [encode]

theorem encode_ne_nil (r : α) : f.encode r ≠ [] := by
  intro h
  have := f.length_encode r
  rw [h, headerSize, length_nil] at this
  omega

/-- The parts of a stream that starts with a whole header. -/
theorem header_parts (r : α) (crc : Nat) (rest : List UInt8) :
    (f.header r crc ++ rest).take 4 = f.magic ∧
    ((f.header r crc ++ rest).drop 4).take f.fieldsSize = f.fields r ∧
    ((f.header r crc ++ rest).drop (4 + f.fieldsSize)).take 4 = toBytes 4 (f.payload r).length ∧
    ((f.header r crc ++ rest).drop (4 + f.fieldsSize + 4)).take 4 = toBytes 4 crc ∧
    (f.header r crc ++ rest).drop f.headerSize = rest := by
  have hm := f.magic_length
  have hf := f.fields_length r
  have h4 : (f.magic ++ f.fields r).length = 4 + f.fieldsSize := by simp [hm, hf]
  have h8 : (f.magic ++ f.fields r ++ toBytes 4 (f.payload r).length).length =
      4 + f.fieldsSize + 4 := by rw [length_append, h4, length_toBytes]
  refine ⟨?_, ?_, ?_, ?_, ?_⟩
  · simp only [header, append_assoc]
    exact take_left' hm
  · simp only [header, append_assoc]
    rw [drop_left' hm]
    exact take_left' hf
  · simp only [header]
    rw [append_assoc, append_assoc, drop_left' h4]
    exact take_left' (length_toBytes _ _)
  · simp only [header]
    rw [append_assoc, drop_left' h8]
    exact take_left' (length_toBytes _ _)
  · exact drop_left' (f.length_header r crc)

theorem decode_encode {r : α} (hr : f.Fits r) (rest : List UInt8) : f.decode (f.encode r ++ rest) = .ok (r, rest) := by
  obtain ⟨hmagic, hfields, hlen, hcrc, hbody⟩ :=
    f.header_parts r (f.computeChecksum r) (f.payload r ++ rest)
  have henc : f.encode r ++ rest = f.header r (f.computeChecksum r) ++ (f.payload r ++ rest) := by
    rw [encode, append_assoc]
  have hne : f.header r (f.computeChecksum r) ++ (f.payload r ++ rest) ≠ [] := by
    rw [← henc]
    simp [f.encode_ne_nil r]
  have hsize : ¬ (f.header r (f.computeChecksum r) ++ (f.payload r ++ rest)).length < f.headerSize := by
    simp
  unfold decode
  rw [henc, if_neg hne, if_neg hsize, if_neg (not_not.2 hmagic)]
  simp only [hfields, hlen, hcrc, hbody, ofBytes_toBytes (f.payload_lt r hr)]
  rw [if_neg (by simp), take_left' rfl, f.make_fields r hr, drop_left' rfl]
  have hchk : ofBytes (toBytes 4 (f.computeChecksum r)) = f.computeChecksum r :=
    ofBytes_toBytes (f.checksum_lt _)
  rw [if_neg (by simp [hchk])]

/-- A part of a frame does not decode. -/
theorem decode_torn {r : α} (hr : f.Fits r) {part : List UInt8} (hpart : part <+: f.encode r)
    (hne : part ≠ f.encode r) : ∃ e, f.decode part = .error e := by
  obtain ⟨rest, hrest⟩ := hpart
  have hlt : part.length < f.headerSize + (f.payload r).length := by
    have hlen := congrArg length hrest
    have : rest ≠ [] := by rintro rfl; exact hne (by simpa using hrest)
    have := length_pos_of_ne_nil this
    rw [length_append, f.length_encode] at hlen
    omega
  unfold decode
  split_ifs with hnil hshort hmagic
  · exact ⟨_, rfl⟩
  · exact ⟨_, rfl⟩
  · exact ⟨_, rfl⟩
  · -- the header is whole, so the length is the payload's and the payload is not all there
    obtain ⟨hd, hhd⟩ : ∃ tail, part = f.header r (f.computeChecksum r) ++ tail := by
      have hpre : f.header r (f.computeChecksum r) <+: part := by
        refine prefix_of_prefix_length_le (prefix_append _ (f.payload r)) ⟨rest, hrest⟩ ?_
        rw [f.length_header]; omega
      obtain ⟨tail, htail⟩ := hpre
      exact ⟨tail, htail.symm⟩
    obtain ⟨-, -, hlen, -, hbody⟩ := f.header_parts r (f.computeChecksum r) hd
    rw [← hhd] at hlen hbody
    have hdlt : hd.length < (f.payload r).length := by
      rw [hhd, length_append, f.length_header] at hlt
      omega
    simp only [hlen, hbody, ofBytes_toBytes (f.payload_lt r hr), if_pos hdlt]
    exact ⟨_, rfl⟩

/-- **A stream of whole frames and a rest that does not decode scans to the frames.** -/
theorem scan_encode {rest : List UInt8} (hrest : ∃ e, f.decode rest = .error e) :
    ∀ {rs : List α} {n : Nat}, rs.length ≤ n → (∀ r ∈ rs, f.Fits r) →
      f.scan n (rs.flatMap f.encode ++ rest) = (rs, rest) := by
  intro rs
  induction rs with
  | nil =>
    intro n _ _
    cases n with
    | zero => rfl
    | succ n =>
      obtain ⟨e, he⟩ := hrest
      simp [scan, he]
  | cons r rs ih =>
    intro n hn hfits
    cases n with
    | zero => simp at hn
    | succ n =>
      have hr : f.Fits r := hfits r mem_cons_self
      have ih' := ih (Nat.le_of_succ_le_succ hn) fun r hr => hfits r (mem_cons_of_mem _ hr)
      rw [flatMap_cons, append_assoc]
      simp only [scan, f.decode_encode hr, ih']

theorem length_le_flatMap_encode (rs : List α) : rs.length ≤ (rs.flatMap f.encode).length := by
  induction rs with
  | nil => simp
  | cons r rs ih =>
    simp only [flatMap_cons, length_append, length_cons, f.length_encode, headerSize]
    omega

theorem scanAll_encode {rs : List α} (hfits : ∀ r ∈ rs, f.Fits r) {rest : List UInt8}
    (hrest : ∃ e, f.decode rest = .error e) : f.scanAll (rs.flatMap f.encode ++ rest) = (rs, rest) := by
  refine f.scan_encode hrest ?_ hfits
  have := f.length_le_flatMap_encode rs
  rw [length_append]
  omega

theorem decode_nil : ∃ e, f.decode [] = .error e := ⟨.eof, by simp [decode]⟩

end Format

end Frame
