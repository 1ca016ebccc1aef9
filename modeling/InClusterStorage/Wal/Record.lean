import InClusterStorage.Lib.Frame

/- The records of the write-ahead log and their bytes on disk (`record.go`). A
   client record is what a writer keeps in its own segment files; a log record is
   the same record after the buffer has given it a position in the aggregated
   log. Both are checksummed frames with the CRC32C of the whole record.

   The Go records also carry their CRC32C. It is always `ComputeCRC32C` of the
   other fields (or zero, which makes `Encode` compute it), so it is a function
   of the record here and not a field. -/
namespace InClusterStorage.Wal

/-- A stream id, sixteen bytes. -/
abbrev UUID := BitVec 128

instance (id : UUID) (ids : List UUID) : Decidable (id ∈ ids) :=
  List.instDecidableMemOfLawfulBEq id ids

structure ClientRecord where
  streamID : UUID
  streamSeq : Nat
  payload : List UInt8
  deriving DecidableEq, Repr

structure LogRecord where
  position : Nat
  streamID : UUID
  streamSeq : Nat
  payload : List UInt8
  deriving DecidableEq, Repr

/-- The stream sequence numbers of the records. -/
def seqs (records : List LogRecord) : List Nat := records.map LogRecord.streamSeq

@[simp] theorem seqs_nil : seqs [] = [] := rfl

@[simp] theorem seqs_append (a b : List LogRecord) : seqs (a ++ b) = seqs a ++ seqs b :=
  List.map_append

theorem mem_seqs {q : Nat} {records : List LogRecord} : q ∈ seqs records ↔ ∃ r ∈ records, r.streamSeq = q := List.mem_map

theorem mem_seqs_of_mem {r : LogRecord} {records : List LogRecord} (h : r ∈ records) :
    r.streamSeq ∈ seqs records := List.mem_map_of_mem h

/-! The checksum, as `hash/crc32` computes it with the Castagnoli table. -/

def castagnoli : UInt32 := 0x82f63b78

/-- One bit of the table's construction. -/
def crcShift (crc : UInt32) : UInt32 :=
  if crc &&& 1 = 1 then (crc >>> 1) ^^^ castagnoli else crc >>> 1

def castagnoliTable (i : UInt8) : UInt32 := crcShift^[8] i.toUInt32

def crcUpdate (crc : UInt32) (b : UInt8) : UInt32 :=
  castagnoliTable (crc.toUInt8 ^^^ b) ^^^ (crc >>> 8)

def crc32c (bytes : List UInt8) : UInt32 := ~~~ bytes.foldl crcUpdate (~~~ 0)

-- the check value of CRC-32C, taken over the digits 1 to 9
example : crc32c [0x31, 0x32, 0x33, 0x34, 0x35, 0x36, 0x37, 0x38, 0x39] = 0xe3069283 := by
  decide +kernel

/-! The two record formats. -/

open Frame

/-- The bytes "WALC". -/
def clientMagicBytes : List UInt8 := [0x57, 0x41, 0x4c, 0x43]

/-- The bytes "WALL". -/
def logMagicBytes : List UInt8 := [0x57, 0x41, 0x4c, 0x4c]

/-- The fields are within their widths; the payload length has four bytes. -/
def ClientRecord.Fits (r : ClientRecord) : Prop :=
  r.streamSeq < 2 ^ 64 ∧ r.payload.length < 2 ^ 32

def LogRecord.Fits (r : LogRecord) : Prop :=
  r.position < 2 ^ 64 ∧ r.streamSeq < 2 ^ 64 ∧ r.payload.length < 2 ^ 32

instance (r : ClientRecord) : Decidable r.Fits := inferInstanceAs (Decidable (_ ∧ _))

instance (r : LogRecord) : Decidable r.Fits := inferInstanceAs (Decidable (_ ∧ _))

theorem crc32c_lt (bytes : List UInt8) : (crc32c bytes).toNat < 256 ^ 4 :=
  (crc32c bytes).toNat_lt

theorem ofBytes_streamID (id : UUID) : BitVec.ofNat 128 (ofBytes (toBytes 16 id.toNat)) = id := by
  rw [ofBytes_toBytes (k := 16) id.isLt, BitVec.ofNat_toNat, BitVec.setWidth_eq]

/-- The bytes `[4B magic][16B stream_id][8B stream_seq][4B length][4B crc32c][payload]` -/
def clientFormat : Format ClientRecord where
  magic := clientMagicBytes
  fieldsSize := 24
  fields r := toBytes 16 r.streamID.toNat ++ toBytes 8 r.streamSeq
  payload := ClientRecord.payload
  make fields payload :=
    { streamID := BitVec.ofNat 128 (ofBytes (fields.take 16))
      streamSeq := ofBytes (fields.drop 16)
      payload }
  checksum bytes := (crc32c bytes).toNat
  Fits := ClientRecord.Fits
  magic_length := rfl
  fields_length r := by simp
  payload_lt r hr := hr.2
  make_fields r hr := by
    rw [List.take_left' (length_toBytes _ _), List.drop_left' (length_toBytes _ _),
      ofBytes_streamID, ofBytes_toBytes (k := 8) hr.1]
  checksum_lt := crc32c_lt

/-- The bytes `[4B magic][8B position][16B stream_id][8B stream_seq][4B length][4B crc32c][payload]` -/
def logFormat : Format LogRecord where
  magic := logMagicBytes
  fieldsSize := 32
  fields r := toBytes 8 r.position ++ (toBytes 16 r.streamID.toNat ++ toBytes 8 r.streamSeq)
  payload := LogRecord.payload
  make fields payload :=
    { position := ofBytes (fields.take 8)
      streamID := BitVec.ofNat 128 (ofBytes ((fields.drop 8).take 16))
      streamSeq := ofBytes ((fields.drop 8).drop 16)
      payload }
  checksum bytes := (crc32c bytes).toNat
  Fits := LogRecord.Fits
  magic_length := rfl
  fields_length r := by simp
  payload_lt r hr := hr.2.2
  make_fields r hr := by
    rw [List.take_left' (length_toBytes _ _), List.drop_left' (length_toBytes _ _),
      List.take_left' (length_toBytes _ _), List.drop_left' (length_toBytes _ _),
      ofBytes_streamID, ofBytes_toBytes (k := 8) hr.1, ofBytes_toBytes (k := 8) hr.2.1]
  checksum_lt := crc32c_lt

instance : DecidablePred clientFormat.Fits := inferInstanceAs (DecidablePred ClientRecord.Fits)

instance : DecidablePred logFormat.Fits := inferInstanceAs (DecidablePred LogRecord.Fits)

def ClientRecord.encode (r : ClientRecord) : List UInt8 := clientFormat.encode r

def LogRecord.encode (r : LogRecord) : List UInt8 := logFormat.encode r

end InClusterStorage.Wal
