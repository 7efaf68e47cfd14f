import Epoch.Lib.Slices
import Epoch.Store.ExtentMeta

/-!
# Blob records (`extent/record.rs`)

A record is a 32-byte header, the body and an 8-byte footer, padded with zeros to a multiple of
4096 bytes.  The header carries a checksum of its other fields, the footer one of the body; the
checksum function is a parameter.
-/

namespace Epoch

def RECORD_HEADER_LEN : ℕ := 32
def RECORD_FOOTER_LEN : ℕ := 8
def RECORD_ALIGN : ℕ := 4096

/-- The header at the start of an extent file, before the first record. -/
def EXTENT_HEADER_LEN : ℕ := 4096

def HEADER_MAGIC : Bytes := [0x45, 0x50, 0x52, 0x48]
def FOOTER_MAGIC : Bytes := [0x45, 0x50, 0x52, 0x46]

/-- The bytes a record occupies with its padding. -/
def recordOnDiskLen (bodyLen : UInt32) : ℕ :=
  nextMultipleOf (RECORD_HEADER_LEN + bodyLen.toNat + RECORD_FOOTER_LEN) RECORD_ALIGN

lemma recordOnDiskLen_ge (bodyLen : UInt32) :
    RECORD_HEADER_LEN + bodyLen.toNat + RECORD_FOOTER_LEN ≤ recordOnDiskLen bodyLen :=
  (nextMultipleOf_spec _ (by decide)).1

lemma recordOnDiskLen_lt_add (bodyLen : UInt32) :
    recordOnDiskLen bodyLen
      < RECORD_HEADER_LEN + bodyLen.toNat + RECORD_FOOTER_LEN + RECORD_ALIGN :=
  (nextMultipleOf_spec _ (by decide)).2.1

lemma recordOnDiskLen_mod (bodyLen : UInt32) : recordOnDiskLen bodyLen % RECORD_ALIGN = 0 :=
  Nat.mod_eq_zero_of_dvd (nextMultipleOf_spec _ (by decide)).2.2

/-! ## Headers and footers -/

inductive RecordError
  | Truncated (got need : ℕ)
  | BadHeaderMagic
  | BadFooterMagic
  | HeaderChecksum (stored computed : UInt32)
  | BodyTooLarge (len : ℕ)
deriving DecidableEq

structure RecordHeader where
  blobId : BlobId
  shardId : ShardId
  bodyLen : UInt32
deriving DecidableEq

/-- `u32::from_le_bytes`. -/
def ofLe32 (buf : Bytes) : UInt32 := UInt32.ofNat (leNat buf)

/-- `u64::from_le_bytes`. -/
def ofLe64 (buf : Bytes) : UInt64 := UInt64.ofNat (leNat buf)

section

variable (crc32c : Bytes → UInt32)

namespace RecordHeader

/-- `RecordHeader::new`. -/
def new (blobId : BlobId) (shardId : ShardId) (bodyLen : ℕ) : Except RecordError RecordHeader :=
  if bodyLen < 2 ^ 32 then .ok ⟨blobId, shardId, UInt32.ofNat bodyLen⟩
  else .error (.BodyTooLarge bodyLen)

/-- The header bytes that the checksum covers. -/
def fields (header : RecordHeader) : Bytes :=
  HEADER_MAGIC ++ le64 header.blobId ++ le64 header.shardId ++ le32 header.bodyLen
    ++ List.replicate 4 0

def encode (header : RecordHeader) : Bytes := le32 (crc32c header.fields) ++ header.fields

def decode (input : Bytes) : Except RecordError RecordHeader :=
  if input.length < RECORD_HEADER_LEN then .error (.Truncated input.length RECORD_HEADER_LEN)
  else
    let buf := input.take RECORD_HEADER_LEN
    if readArray 4 buf 4 ≠ HEADER_MAGIC then .error .BadHeaderMagic
    else
      let stored := ofLe32 (readArray 4 buf 0)
      let computed := crc32c (buf.drop 4)
      if stored ≠ computed then .error (.HeaderChecksum stored computed)
      else
        .ok ⟨ofLe64 (readArray 8 buf 8), ofLe64 (readArray 8 buf 16), ofLe32 (readArray 4 buf 24)⟩

@[simp] lemma length_fields (header : RecordHeader) : header.fields.length = 28 := by
  simp [fields, HEADER_MAGIC]

@[simp] lemma length_encode (header : RecordHeader) :
    (header.encode crc32c).length = RECORD_HEADER_LEN := by
  simp [encode, RECORD_HEADER_LEN]

lemma decode_encode (header : RecordHeader) : decode crc32c (header.encode crc32c) = .ok header := by
  have hbuf : (header.encode crc32c).take RECORD_HEADER_LEN = header.encode crc32c := by
    rw [← length_encode crc32c header, List.take_length]
  have hdrop : (header.encode crc32c).drop 4 = header.fields := List.drop_left' (by simp)
  have hcrc : readArray 4 (header.encode crc32c) 0 = le32 (crc32c header.fields) :=
    readArray_field (p := []) _ rfl (by simp)
  have hmagic : readArray 4 (header.encode crc32c) 4 = HEADER_MAGIC := by
    simp only [encode, fields, List.append_assoc]
    rw [← List.append_assoc]
    exact readArray_field _ (by simp) rfl
  have hblob : readArray 8 (header.encode crc32c) 8 = le64 header.blobId := by
    simp only [encode, fields, List.append_assoc]
    rw [← List.append_assoc, ← List.append_assoc]
    exact readArray_field _ (by simp [HEADER_MAGIC]) (by simp)
  have hshard : readArray 8 (header.encode crc32c) 16 = le64 header.shardId := by
    simp only [encode, fields, List.append_assoc]
    rw [← List.append_assoc, ← List.append_assoc, ← List.append_assoc]
    exact readArray_field _ (by simp [HEADER_MAGIC]) (by simp)
  have hlen : readArray 4 (header.encode crc32c) 24 = le32 header.bodyLen := by
    simp only [encode, fields, List.append_assoc]
    rw [← List.append_assoc, ← List.append_assoc, ← List.append_assoc, ← List.append_assoc]
    exact readArray_field _ (by simp [HEADER_MAGIC]) (by simp)
  rw [decode, if_neg (by simp), hbuf]
  simp [hmagic, hcrc, hdrop, hblob, hshard, hlen, ofLe32, ofLe64]

end RecordHeader

end

/-- `encode_footer`. -/
def encodeFooter (bodyCrc : UInt32) : Bytes := FOOTER_MAGIC ++ le32 bodyCrc

/-- `decode_footer`. -/
def decodeFooter (input : Bytes) : Except RecordError UInt32 :=
  if input.length < RECORD_FOOTER_LEN then .error (.Truncated input.length RECORD_FOOTER_LEN)
  else
    let buf := input.take RECORD_FOOTER_LEN
    if readArray 4 buf 0 ≠ FOOTER_MAGIC then .error .BadFooterMagic
    else .ok (ofLe32 (readArray 4 buf 4))

@[simp] lemma length_encodeFooter (bodyCrc : UInt32) :
    (encodeFooter bodyCrc).length = RECORD_FOOTER_LEN := by
  simp [encodeFooter, FOOTER_MAGIC, RECORD_FOOTER_LEN]

lemma decodeFooter_encodeFooter (bodyCrc : UInt32) :
    decodeFooter (encodeFooter bodyCrc) = .ok bodyCrc := by
  have hbuf : (encodeFooter bodyCrc).take RECORD_FOOTER_LEN = encodeFooter bodyCrc := by
    rw [← length_encodeFooter bodyCrc, List.take_length]
  have hmagic : readArray 4 (encodeFooter bodyCrc) 0 = FOOTER_MAGIC :=
    readArray_field (p := []) _ rfl rfl
  have hcrc : readArray 4 (encodeFooter bodyCrc) 4 = le32 bodyCrc := by
    rw [← List.append_nil (encodeFooter bodyCrc)]
    exact readArray_field _ rfl (by simp)
  rw [decodeFooter, if_neg (by simp), hbuf]
  simp [hmagic, hcrc, ofLe32]

end Epoch
