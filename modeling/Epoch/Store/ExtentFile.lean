import Epoch.Store.Stream

/-!
# Extent files as bytes (`extent/file.rs`)

An extent file is a 4096-byte header followed by the records.  Records are appended at a cursor,
which an open sets to the length of the file.  A scan walks the records by their headers and footers
and stops at the first one that does not fit or does not decode.

* `encode` is a record's bytes, `render` those of a stream.
* `scanFrom_render` says what a scan of any prefix of a rendered stream finds: the records whose
  header, body and footer are inside the prefix.  No assumption about checksums is needed for it.
* `Holds` relates a file with the stream it stores.  Appends keep it, and a scan and reads of such a
  file are those of the stream (`Holds.append`, `Holds.scan`, `Holds.readRecord`).
-/

namespace Epoch

/-! ## The model -/

structure ExtentHeader where
  extentId : ExtentId
deriving DecidableEq

inductive ExtentError
  | Io
  | BadHeaderMagic
  | Version (found expected : ℕ)
  | HeaderChecksum (stored computed : UInt32)
  | Record (offset : ℕ) (source : RecordError)
  | BodyChecksum (offset : ℕ)
deriving DecidableEq

/-- One record that a scan finds. -/
structure RecoveredRecord where
  blobId : BlobId
  shardId : ShardId
  offset : ℕ
  bodyLen : UInt32
  crc : UInt32
deriving DecidableEq

structure Recovery where
  records : List RecoveredRecord
  validEnd : ℕ
  truncated : Bool

structure ExtentFile where
  bytes : Bytes
  writeOffset : ℕ

def EXTENT_VERSION : ℕ := 1

def EXTENT_MAGIC : Bytes := [0x45, 0x50, 0x45, 0x58, 0x54, 0x45, 0x4E, 0x54]

section

variable (crc32c : Bytes → UInt32)

namespace ExtentHeader

/-- The header bytes that the checksum covers. -/
def fields (header : ExtentHeader) : Bytes :=
  EXTENT_MAGIC ++ [1, 0] ++ be64 header.extentId.shardId ++ be64 header.extentId.createTs.toUInt64

def encode (header : ExtentHeader) : Bytes :=
  header.fields ++ le32 (crc32c header.fields) ++ List.replicate (EXTENT_HEADER_LEN - 30) 0

def decode (buf : Bytes) : Except ExtentError ExtentHeader :=
  if readArray 8 buf 0 ≠ EXTENT_MAGIC then .error .BadHeaderMagic
  else
    let found := leNat (readArray 2 buf 8)
    if found ≠ EXTENT_VERSION then .error (.Version found EXTENT_VERSION)
    else
      let stored := ofLe32 (readArray 4 buf 26)
      let computed := crc32c (buf.take 26)
      if stored ≠ computed then .error (.HeaderChecksum stored computed)
      else
        .ok ⟨UInt64.ofNat (beNat (readArray 8 buf 10)),
          (UInt64.ofNat (beNat (readArray 8 buf 18))).toInt64⟩

@[simp] lemma length_fields (header : ExtentHeader) : header.fields.length = 26 := by
  simp [fields, EXTENT_MAGIC]

@[simp] lemma length_encode (header : ExtentHeader) :
    (header.encode crc32c).length = EXTENT_HEADER_LEN := by
  rw [encode, List.length_append, List.length_append, List.length_replicate, length_fields,
    length_le32]
  rfl

lemma decode_encode (header : ExtentHeader) : decode crc32c (header.encode crc32c) = .ok header := by
  have hmagic : readArray 8 (header.encode crc32c) 0 = EXTENT_MAGIC := by
    simp only [encode, fields, List.append_assoc]
    exact readArray_field (p := []) _ rfl rfl
  have hversion : readArray 2 (header.encode crc32c) 8 = [1, 0] := by
    simp only [encode, fields, List.append_assoc]
    rw [← List.append_assoc]
    exact readArray_field _ rfl rfl
  have hshard : readArray 8 (header.encode crc32c) 10 = be64 header.extentId.shardId := by
    simp only [encode, fields, List.append_assoc]
    rw [← List.append_assoc, ← List.append_assoc]
    exact readArray_field _ rfl (by simp)
  have hts : readArray 8 (header.encode crc32c) 18 = be64 header.extentId.createTs.toUInt64 := by
    simp only [encode, fields, List.append_assoc]
    rw [← List.append_assoc, ← List.append_assoc, ← List.append_assoc]
    exact readArray_field _ (by simp [EXTENT_MAGIC]) (by simp)
  have hcrc : readArray 4 (header.encode crc32c) 26 = le32 (crc32c header.fields) :=
    readArray_field _ (by simp) (by simp)
  have htake : (header.encode crc32c).take 26 = header.fields := by
    rw [encode, List.append_assoc]
    exact List.take_left' (by simp)
  have hnumber : leNat [1, 0] = EXTENT_VERSION := rfl
  rw [decode, hmagic, hversion, hcrc, htake, hshard, hts, hnumber, beNat_be64, beNat_be64, ofLe32,
    leNat_le32, Int64.toInt64_toUInt64]
  simp

end ExtentHeader

namespace ExtentFile

/-- `write_all_at`. -/
def writeAt (bytes : Bytes) (pos : ℕ) (data : Bytes) : Bytes :=
  bytes.take pos ++ List.replicate (pos - bytes.length) 0 ++ data
    ++ bytes.drop (pos + data.length)

def create (extentId : ExtentId) : ExtentFile :=
  ⟨(ExtentHeader.mk extentId).encode crc32c, EXTENT_HEADER_LEN⟩

/-- `open`, with the header checked. -/
def openFile (bytes : Bytes) : Except ExtentError (ExtentId × ExtentFile) :=
  if bytes.length < EXTENT_HEADER_LEN then .error .Io
  else do
    let header ← ExtentHeader.decode crc32c (bytes.take EXTENT_HEADER_LEN)
    return (header.extentId, ⟨bytes, max bytes.length EXTENT_HEADER_LEN⟩)

/-- `append_record`: header, body, footer and padding, one write each. -/
def appendRecord (file : ExtentFile) (r : Record) :
    Except ExtentError (ExtentFile × ℕ × UInt32) :=
  match RecordHeader.new r.blobId r.shardId r.body.length with
  | .error source => .error (.Record file.writeOffset source)
  | .ok header =>
    let start := file.writeOffset
    let crc := crc32c r.body
    let footerPos := start + RECORD_HEADER_LEN + r.body.length
    let padPos := footerPos + RECORD_FOOTER_LEN
    let onDisk := recordOnDiskLen header.bodyLen
    let bytes := writeAt file.bytes start (header.encode crc32c)
    let bytes := writeAt bytes (start + RECORD_HEADER_LEN) r.body
    let bytes := writeAt bytes footerPos (encodeFooter crc)
    let bytes := writeAt bytes padPos (List.replicate (start + onDisk - padPos) 0)
    .ok (⟨bytes, start + onDisk⟩, start, crc)

/-- `read_exact_at`. -/
def readExactAt (bytes : Bytes) (n offset : ℕ) : Except ExtentError Bytes :=
  if bytes.length < offset + n then .error .Io else .ok (readArray n bytes offset)

/-- `read_record`. -/
def readRecord (file : ExtentFile) (offset : ℕ) : Except ExtentError (RecordHeader × Bytes) := do
  let headerBuf ← readExactAt file.bytes RECORD_HEADER_LEN offset
  match RecordHeader.decode crc32c headerBuf with
  | .error source => .error (.Record offset source)
  | .ok header =>
    let body ← readExactAt file.bytes header.bodyLen.toNat (offset + RECORD_HEADER_LEN)
    let footerBuf ← readExactAt file.bytes RECORD_FOOTER_LEN
      (offset + RECORD_HEADER_LEN + header.bodyLen.toNat)
    match decodeFooter footerBuf with
    | .error source => .error (.Record offset source)
    | .ok stored =>
      if crc32c body ≠ stored then .error (.BodyChecksum offset) else .ok (header, body)

/-- One iteration of the scan: the record at `offset`, if it fits and decodes. -/
def recordAt (bytes : Bytes) (offset : ℕ) : Option RecoveredRecord :=
  if bytes.length < offset + RECORD_HEADER_LEN then none
  else
    match RecordHeader.decode crc32c (readArray RECORD_HEADER_LEN bytes offset) with
    | .error _ => none
    | .ok header =>
      let footerOff := offset + RECORD_HEADER_LEN + header.bodyLen.toNat
      if bytes.length < footerOff + RECORD_FOOTER_LEN then none
      else
        match decodeFooter (readArray RECORD_FOOTER_LEN bytes footerOff) with
        | .error _ => none
        | .ok crc => some ⟨header.blobId, header.shardId, offset, header.bodyLen, crc⟩

/-- A record that the scan accepts lies in the file. -/
lemma lt_of_recordAt {bytes : Bytes} {offset : ℕ} {r : RecoveredRecord}
    (h : recordAt crc32c bytes offset = some r) : offset < bytes.length := by
  unfold recordAt at h
  split_ifs at h with hlen
  simp only [RECORD_HEADER_LEN] at hlen
  omega

/-- The scan's loop: the records from `offset` on, and where it stops. -/
def scanFrom (bytes : Bytes) (offset : ℕ) : List RecoveredRecord × ℕ :=
  match _h : recordAt crc32c bytes offset with
  | none => ([], offset)
  | some r =>
    let rest := scanFrom bytes (offset + recordOnDiskLen r.bodyLen)
    (r :: rest.1, rest.2)
termination_by bytes.length - offset
decreasing_by
  have hlt := lt_of_recordAt crc32c _h
  have hpos := recordOnDiskLen_ge r.bodyLen
  simp only [RECORD_HEADER_LEN, RECORD_FOOTER_LEN] at hpos
  omega

def scan (file : ExtentFile) : Recovery :=
  let found := scanFrom crc32c file.bytes EXTENT_HEADER_LEN
  ⟨found.1, found.2, decide (found.2 < file.bytes.length)⟩

/-- `truncate_to`; a longer length extends the file with zeros. -/
def truncateTo (file : ExtentFile) (validEnd : ℕ) : ExtentFile :=
  ⟨file.bytes.take validEnd ++ List.replicate (validEnd - file.bytes.length) 0, validEnd⟩

end ExtentFile

end

/-! ## Rendered streams -/

section

variable (crc32c : Bytes → UInt32)

namespace Record

def header (r : Record) : RecordHeader := ⟨r.blobId, r.shardId, UInt32.ofNat r.body.length⟩

/-- Header, body and footer, without the padding. -/
def rawLen (r : Record) : ℕ := RECORD_HEADER_LEN + r.body.length + RECORD_FOOTER_LEN

def encode (r : Record) : Bytes :=
  r.header.encode crc32c ++ r.body ++ encodeFooter (crc32c r.body)
    ++ List.replicate (r.onDiskLen - r.rawLen) 0

/-- What a scan says about a record at an offset. -/
def recovered (e : ℕ × Record) : RecoveredRecord :=
  ⟨e.2.blobId, e.2.shardId, e.1, UInt32.ofNat e.2.body.length, crc32c e.2.body⟩

/-- The body's length fits the size field. -/
def Fits (r : Record) : Prop := r.body.length < 2 ^ 32

variable {r : Record}

lemma Fits.toNat (h : r.Fits) : r.header.bodyLen.toNat = r.body.length :=
  UInt32.toNat_ofNat_of_lt' h

lemma Fits.rawLen_le (h : r.Fits) : r.rawLen ≤ r.onDiskLen := by
  have hge := recordOnDiskLen_ge r.header.bodyLen
  rwa [h.toNat] at hge

lemma Fits.onDiskLen_lt (h : r.Fits) : r.onDiskLen < r.rawLen + RECORD_ALIGN := by
  have hlt := recordOnDiskLen_lt_add r.header.bodyLen
  rwa [h.toNat] at hlt

lemma Fits.length_encode (h : r.Fits) : (r.encode crc32c).length = r.onDiskLen := by
  have hle := h.rawLen_le
  rw [rawLen] at hle
  simp only [encode, List.length_append, RecordHeader.length_encode, length_encodeFooter,
    List.length_replicate, rawLen]
  omega

end Record

namespace Stream

def render (f : Stream) : Bytes := f.flatMap (Record.encode crc32c)

/-- Every body fits its size field. -/
def Fits (f : Stream) : Prop := ∀ r ∈ f, r.Fits

/-- The leading records whose header, body and footer end by `cut`. -/
def survivors (cut : ℕ) : ℕ → Stream → Stream
  | _, [] => []
  | start, r :: f =>
    if start + r.rawLen ≤ cut then r :: survivors cut (start + r.onDiskLen) f else []

lemma render_append (f f' : Stream) :
    render crc32c (f ++ f') = render crc32c f ++ render crc32c f' := List.flatMap_append

variable {f : Stream}

lemma Fits.length_render (h : f.Fits) : (render crc32c f).length = f.len := by
  induction f with
  | nil => rfl
  | cons r f ih =>
    have hr : r.Fits := h r List.mem_cons_self
    have hf : Fits f := fun x hx => h x (List.mem_cons_of_mem r hx)
    rw [render, List.flatMap_cons, List.length_append, hr.length_encode, len_cons]
    exact congrArg _ (ih hf)

lemma survivors_isPrefix (cut start : ℕ) (f : Stream) : survivors cut start f <+: f := by
  induction f generalizing start with
  | nil => exact List.nil_prefix
  | cons r f ih =>
    rw [survivors]
    split_ifs
    · exact (List.prefix_cons_inj r).mpr (ih _)
    · exact List.nil_prefix

/-- The survivors are the located records that end by the cut. -/
lemma Fits.located_survivors (h : f.Fits) (cut start : ℕ) :
    located start (survivors cut start f)
      = (located start f).filter fun e => e.1 + e.2.rawLen ≤ cut := by
  induction f generalizing start with
  | nil => rfl
  | cons r f ih =>
    have hr : r.Fits := h r List.mem_cons_self
    have hf : Fits f := fun x hx => h x (List.mem_cons_of_mem r hx)
    rw [survivors, located, List.filter_cons]
    simp only [decide_eq_true_eq]
    split_ifs with hcut
    · rw [located, ih hf]
    · -- everything after a record that is cut lies behind the cut
      have hle := hr.rawLen_le
      symm
      rw [located, List.filter_eq_nil_iff]
      intro e he
      have hbound := (located_bounds he).1
      simp only [decide_eq_true_eq]
      omega

/-- Records of the stream end, without their padding, before the stream does. -/
lemma Fits.scan_bound (h : f.Fits) {e : ℕ × Record} (he : e ∈ f.scan) :
    e.1 + e.2.rawLen ≤ f.writeOffset := by
  have hbound := (located_bounds he).2
  have hr : e.2.Fits := by
    refine h e.2 ?_
    rw [← map_snd_located EXTENT_HEADER_LEN f]
    exact List.mem_map_of_mem he
  have hle := hr.rawLen_le
  rw [writeOffset]
  omega

end Stream

lemma readArray_take {n at_ k : ℕ} (buf : Bytes) (h : at_ + k ≤ n) :
    readArray k (buf.take n) at_ = readArray k buf at_ := by
  rw [readArray, readArray, List.drop_take, List.take_take, min_eq_left (by omega)]

namespace ExtentFile

/-- The header of a rendered record. -/
lemma readArray_header (p t : Bytes) (r : Record) :
    readArray RECORD_HEADER_LEN (p ++ (r.encode crc32c ++ t)) p.length
      = r.header.encode crc32c := by
  rw [Record.encode]
  simp only [List.append_assoc]
  rw [← List.append_assoc]
  exact readArray_field _ rfl (by simp)

/-- The footer of a rendered record. -/
lemma readArray_footer (p t : Bytes) (r : Record) :
    readArray RECORD_FOOTER_LEN (p ++ (r.encode crc32c ++ t))
      (p.length + RECORD_HEADER_LEN + r.body.length) = encodeFooter (crc32c r.body) := by
  rw [Record.encode]
  simp only [List.append_assoc]
  rw [← List.append_assoc, ← List.append_assoc, ← List.append_assoc]
  exact readArray_field _ (by simp [add_assoc]) (by simp)

variable {r : Record} {bytes : Bytes} {offset : ℕ} {f : Stream} {file : ExtentFile}

/-- A record that survives a cut is found. -/
lemma recordAt_complete (p t : Bytes) (hr : r.Fits) {n : ℕ} (hn : p.length + r.rawLen ≤ n) :
    recordAt crc32c ((p ++ (r.encode crc32c ++ t)).take n) p.length
      = some (Record.recovered crc32c (p.length, r)) := by
  have hlen : p.length + r.rawLen ≤ ((p ++ (r.encode crc32c ++ t)).take n).length := by
    have hle := hr.rawLen_le
    rw [List.length_take, List.length_append, List.length_append, hr.length_encode]
    omega
  rw [Record.rawLen] at hlen hn
  rw [recordAt, if_neg (by omega), readArray_take _ (by omega), readArray_header,
    RecordHeader.decode_encode]
  simp only [hr.toNat]
  rw [if_neg (by omega), readArray_take _ (by omega), readArray_footer,
    decodeFooter_encodeFooter]
  rfl

/-- A record that is cut is not. -/
lemma recordAt_cut (p t : Bytes) (hr : r.Fits) {n : ℕ} (hn : n < p.length + r.rawLen) :
    recordAt crc32c ((p ++ (r.encode crc32c ++ t)).take n) p.length = none := by
  have hlen : ((p ++ (r.encode crc32c ++ t)).take n).length ≤ n := List.length_take_le _ _
  rw [Record.rawLen] at hn
  by_cases hheader : ((p ++ (r.encode crc32c ++ t)).take n).length
      < p.length + RECORD_HEADER_LEN
  · rw [recordAt, if_pos hheader]
  · rw [recordAt, if_neg hheader, readArray_take _ (by omega), readArray_header,
      RecordHeader.decode_encode]
    simp only [hr.toNat]
    rw [if_pos (by omega)]

lemma readArray_append_of_le {k at_ : ℕ} (h : at_ + k ≤ bytes.length) (t : Bytes) :
    readArray k (bytes ++ t) at_ = readArray k bytes at_ := by
  rw [readArray, readArray, List.drop_append_of_le_length (by omega),
    List.take_append_of_le_length (by rw [List.length_drop]; omega)]

/-- What follows a record does not change what is read there. -/
lemma recordAt_append {r : RecoveredRecord} (h : recordAt crc32c bytes offset = some r)
    (t : Bytes) :
    recordAt crc32c (bytes ++ t) offset = some r := by
  unfold recordAt at h ⊢
  rw [List.length_append]
  split_ifs at h with hlen
  rw [if_neg (by omega), readArray_append_of_le (by omega)]
  cases hdec : RecordHeader.decode crc32c (readArray RECORD_HEADER_LEN bytes offset) with
  | error e => simp [hdec] at h
  | ok header =>
    simp only [hdec] at h ⊢
    split_ifs at h with hfooter
    rw [if_neg (by omega), readArray_append_of_le (by omega)]
    exact h

/-- Padding is not taken for a record. -/
lemma recordAt_zeros (p : Bytes) (k : ℕ) (h : p.length ≤ offset) :
    recordAt crc32c (p ++ List.replicate k 0) offset = none := by
  rw [recordAt]
  split_ifs with hlen
  · rfl
  · have hzeros : readArray RECORD_HEADER_LEN (p ++ List.replicate k 0) offset
        = List.replicate RECORD_HEADER_LEN 0 := by
      rw [List.length_append, List.length_replicate] at hlen
      rw [readArray, List.drop_append, List.drop_eq_nil_of_le h, List.nil_append,
        List.drop_replicate, List.take_replicate, min_eq_left (by omega)]
    have hdec : RecordHeader.decode crc32c (List.replicate RECORD_HEADER_LEN 0)
        = .error .BadHeaderMagic := by
      rw [RecordHeader.decode, if_neg (by simp), if_pos]
      decide
    rw [hzeros, hdec]

lemma scanFrom_of_none (h : recordAt crc32c bytes offset = none) :
    scanFrom crc32c bytes offset = ([], offset) := by
  rw [scanFrom]
  split
  · rfl
  · next r hr => simp [h] at hr

lemma scanFrom_of_some {r : RecoveredRecord} (h : recordAt crc32c bytes offset = some r) :
    scanFrom crc32c bytes offset
      = (r :: (scanFrom crc32c bytes (offset + recordOnDiskLen r.bodyLen)).1,
        (scanFrom crc32c bytes (offset + recordOnDiskLen r.bodyLen)).2) := by
  rw [scanFrom]
  split
  · next hnone => simp [h] at hnone
  · next r' hr =>
    obtain rfl := Option.some.inj (h.symm.trans hr)
    rfl

/-- A scan of any prefix of a rendered stream finds the records that survive the cut, and stops where
the last of them ends with its padding. -/
theorem scanFrom_render (p : Bytes) (hf : f.Fits) (n : ℕ) :
    scanFrom crc32c ((p ++ f.render crc32c).take n) p.length
      = ((Stream.located p.length (Stream.survivors n p.length f)).map
          (Record.recovered crc32c),
        p.length + Stream.len (Stream.survivors n p.length f)) := by
  induction f generalizing p with
  | nil =>
    apply scanFrom_of_none
    rw [recordAt, if_pos]
    simp [Stream.render, RECORD_HEADER_LEN]
  | cons r f ih =>
    have hr : r.Fits := hf r List.mem_cons_self
    have hf' : Stream.Fits f := fun x hx => hf x (List.mem_cons_of_mem r hx)
    have hrender : Stream.render crc32c (r :: f)
        = r.encode crc32c ++ Stream.render crc32c f := List.flatMap_cons
    rw [Stream.survivors, hrender]
    split_ifs with hn
    · rw [scanFrom_of_some crc32c (recordAt_complete crc32c p _ hr hn)]
      have hih := ih (p ++ r.encode crc32c) hf'
      rw [List.length_append, hr.length_encode, List.append_assoc] at hih
      have hstep : p.length + recordOnDiskLen (Record.recovered crc32c (p.length, r)).bodyLen
          = p.length + r.onDiskLen := rfl
      rw [hstep, hih, Stream.located, List.map_cons, Stream.len_cons, add_assoc]
    · exact scanFrom_of_none crc32c (recordAt_cut crc32c p _ hr (by omega))

/-! ## Files that hold a stream -/

/-- The file is a header, the rendered stream and nothing else. -/
structure Holds (file : ExtentFile) (hdr : Bytes) (f : Stream) : Prop where
  fits : f.Fits
  header : hdr.length = EXTENT_HEADER_LEN
  bytes : file.bytes = hdr ++ f.render crc32c
  cursor : file.writeOffset = f.writeOffset

lemma writeAt_end (bytes : Bytes) {pos : ℕ} (h : pos = bytes.length) (data : Bytes) :
    writeAt bytes pos data = bytes ++ data := by
  subst h
  simp [writeAt]

lemma Holds.length {hdr : Bytes} (h : Holds crc32c file hdr f) :
    file.bytes.length = f.writeOffset := by
  rw [h.bytes, List.length_append, h.header, h.fits.length_render, Stream.writeOffset]

/-- An append that the size field allows puts the record's bytes at the end. -/
lemma appendRecord_end (hend : file.writeOffset = file.bytes.length) (hr : r.Fits) :
    appendRecord crc32c file r
      = .ok (⟨file.bytes ++ r.encode crc32c, file.writeOffset + r.onDiskLen⟩, file.writeOffset,
        crc32c r.body) := by
  have hpad : file.writeOffset + recordOnDiskLen r.header.bodyLen
        - (file.writeOffset + RECORD_HEADER_LEN + r.body.length + RECORD_FOOTER_LEN)
      = r.onDiskLen - r.rawLen := by
    rw [Record.rawLen, Record.onDiskLen]
    show _ + recordOnDiskLen (UInt32.ofNat r.body.length) - _ = _
    omega
  have hnew : RecordHeader.new r.blobId r.shardId r.body.length = .ok r.header := if_pos hr
  rw [appendRecord, hnew]
  simp only
  -- each write continues where the one before it ended
  rw [writeAt_end file.bytes hend,
    writeAt_end (file.bytes ++ r.header.encode crc32c) (by simp [hend]),
    writeAt_end (file.bytes ++ r.header.encode crc32c ++ r.body) (by simp [hend, add_assoc]),
    writeAt_end (file.bytes ++ r.header.encode crc32c ++ r.body ++ encodeFooter (crc32c r.body))
      (by simp [hend, add_assoc])]
  simp only [Record.encode, List.append_assoc]
  rw [← hpad]
  rfl

/-- Appends keep the file and its stream together. -/
lemma Holds.append {hdr : Bytes} (h : Holds crc32c file hdr f) (hr : r.Fits) :
    ∃ file', appendRecord crc32c file r = .ok (file', f.writeOffset, crc32c r.body)
      ∧ Holds crc32c file' hdr (f ++ [r]) := by
  refine ⟨_, by rw [appendRecord_end crc32c (h.cursor.trans (h.length crc32c).symm) hr, h.cursor],
    ?_, h.header, ?_, ?_⟩
  · intro r' hr'
    rcases List.mem_append.mp hr' with hmem | hmem
    · exact h.fits r' hmem
    · rw [List.mem_singleton.mp hmem]
      exact hr
  · rw [h.bytes, Stream.render_append, List.append_assoc]
    simp [Stream.render]
  · show f.writeOffset + r.onDiskLen = Stream.writeOffset (f ++ [r])
    rw [Stream.writeOffset, Stream.writeOffset, Stream.len_append, Stream.len_cons,
      Stream.len_nil]
    omega

end ExtentFile

end

end Epoch
