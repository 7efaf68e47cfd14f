import Epoch.Lib.Run
import Epoch.Store.ExtentFile

/-!
# The record stream as a recovery source (`extent/file.rs`, `service.rs`)

Without metadata an extent is rebuilt from its file: a scan finds the records, and a torn tail after
the last of them is cut off.  A crash inside the padding of the last record leaves a file that is
shorter than the scan's valid end.  Nothing is cut off then, the cursor stays at the odd length, and
what is appended there is out of step with the next scan (`append_after_cut_padding_is_lost`).

`recovery_finds_survivors` says that every recovery finds exactly the surviving records as long as no
record is appended at such a length.  The invariant is that the file is a prefix of a rendered stream
that ends in or after the last record's padding.
-/

namespace Epoch

section

variable (crc32c : Bytes → UInt32)

/-- `open` and `recover_extent` of an extent without metadata: the file and what the scan found. -/
def recoverStream (bytes : Bytes) : Except ExtentError (ExtentFile × Recovery) := do
  let (_, file) ← ExtentFile.openFile crc32c bytes
  let recovery := file.scan crc32c
  return (if recovery.truncated then file.truncateTo recovery.validEnd else file, recovery)

/-- A file, and the records appended to it that no crash has cut yet. -/
structure FileHistory where
  file : ExtentFile
  log : List (ℕ × Record)

inductive FileStep
  | append (r : Record)
  -- all bytes from `cut` on are lost, and the file is recovered
  | crash (cut : ℕ)

namespace FileHistory

def create (extentId : ExtentId) : FileHistory := ⟨ExtentFile.create crc32c extentId, []⟩

/-- The records whose header, body and footer lie before the cut. -/
def surviving (log : List (ℕ × Record)) (cut : ℕ) : List (ℕ × Record) :=
  log.filter fun e => e.1 + e.2.rawLen ≤ cut

def step (s : FileHistory) : FileStep → FileHistory
  | .append r =>
    match s.file.appendRecord crc32c r with
    | .ok (file, offset, _) => ⟨file, s.log ++ [(offset, r)]⟩
    | .error _ => s
  | .crash cut =>
    match recoverStream crc32c (s.file.bytes.take cut) with
    | .ok (file, _) => ⟨file, surviving s.log cut⟩
    | .error _ => s

/-- A crash leaves the header. -/
def KeepsHeader (_ : FileHistory) : FileStep → Prop
  | .crash cut => EXTENT_HEADER_LEN ≤ cut
  | .append _ => True

/-- The condition on a step: records are appended at aligned lengths only. -/
def AppendsAligned (s : FileHistory) : FileStep → Prop
  | .append _ => s.file.writeOffset % RECORD_ALIGN = 0
  | .crash _ => True

/-! ## The invariant -/

/-- The file is a prefix of a rendered stream in which only padding is missing. -/
structure Streams (hdr : Bytes) (f : Stream) (s : FileHistory) : Prop where
  fits : f.Fits
  log : s.log = f.scan
  bytes : s.file.bytes = (hdr ++ f.render crc32c).take s.file.writeOffset
  cursor : s.file.writeOffset = s.file.bytes.length
  whole : ∀ e ∈ f.scan, e.1 + e.2.rawLen ≤ s.file.writeOffset
  header : EXTENT_HEADER_LEN ≤ s.file.writeOffset

variable {crc32c} {hdr : Bytes} {f : Stream} {s : FileHistory}

lemma Streams.le (h : Streams crc32c hdr f s) (hhdr : hdr.length = EXTENT_HEADER_LEN) :
    s.file.writeOffset ≤ f.writeOffset := by
  have hlen := congrArg List.length h.bytes
  rw [← h.cursor, List.length_take, List.length_append, hhdr, h.fits.length_render] at hlen
  rw [Stream.writeOffset]
  omega

/-- Streams start and end at multiples of the alignment. -/
lemma len_mod (f : Stream) : f.len % RECORD_ALIGN = 0 := by
  induction f with
  | nil => rfl
  | cons r f ih =>
    have hr := recordOnDiskLen_mod (UInt32.ofNat r.body.length)
    rw [Stream.len_cons, Nat.add_mod, ih, Record.onDiskLen, hr]
    rfl

/-- At an aligned length no padding is missing. -/
lemma Streams.holds (h : Streams crc32c hdr f s) (hhdr : hdr.length = EXTENT_HEADER_LEN)
    (haligned : s.file.writeOffset % RECORD_ALIGN = 0) :
    ExtentFile.Holds crc32c s.file hdr f := by
  have hle := h.le hhdr
  have hcursor : s.file.writeOffset = f.writeOffset := by
    rcases f.eq_nil_or_concat with rfl | ⟨f', r, rfl⟩
    · exact le_antisymm hle h.header
    · -- the last record ends after the cursor, by less than one unit
      have hr : r.Fits := h.fits r (by simp)
      have hlast : Stream.writeOffset f' + r.rawLen ≤ s.file.writeOffset := by
        refine h.whole (Stream.writeOffset f', r) ?_
        rw [List.concat_eq_append, Stream.scan_append]
        exact List.mem_append_right _ List.mem_cons_self
      have hlt := hr.onDiskLen_lt
      have hmod := len_mod (f'.concat r)
      have hlen : Stream.len (f'.concat r) = Stream.len f' + r.onDiskLen := by
        rw [List.concat_eq_append, Stream.len_append, Stream.len_cons, Stream.len_nil]
        rfl
      simp only [Stream.writeOffset, EXTENT_HEADER_LEN, RECORD_ALIGN] at *
      omega
  refine ⟨h.fits, hhdr, ?_, hcursor⟩
  rw [h.bytes, hcursor, List.take_of_length_le]
  rw [List.length_append, hhdr, h.fits.length_render, Stream.writeOffset]

lemma Streams.of_holds {file : ExtentFile} (h : ExtentFile.Holds crc32c file hdr f) :
    Streams crc32c hdr f ⟨file, f.scan⟩ := by
  have hlen := h.length crc32c
  refine ⟨h.fits, rfl, ?_, ?_, ?_, ?_⟩
  · show file.bytes = _
    rw [h.cursor, ← hlen, ← h.bytes, List.take_length]
  · exact h.cursor.trans hlen.symm
  · intro e he
    show _ ≤ file.writeOffset
    rw [h.cursor]
    exact h.fits.scan_bound he
  · show _ ≤ file.writeOffset
    rw [h.cursor, Stream.writeOffset]
    omega

lemma Streams.append (h : Streams crc32c hdr f s) (hhdr : hdr.length = EXTENT_HEADER_LEN)
    (haligned : s.file.writeOffset % RECORD_ALIGN = 0) (r : Record) :
    ∃ f', Streams crc32c hdr f' (s.step crc32c (.append r)) := by
  have hholds := h.holds hhdr haligned
  by_cases hr : r.Fits
  · obtain ⟨file', happend, hholds'⟩ := hholds.append crc32c hr
    refine ⟨f ++ [r], ?_⟩
    have hstep : s.step crc32c (.append r) = ⟨file', (f ++ [r] : Stream).scan⟩ := by
      simp only [step, happend]
      rw [h.log, Stream.scan_append]
      rfl
    rw [hstep]
    exact Streams.of_holds hholds'
  · refine ⟨f, ?_⟩
    have hnew : RecordHeader.new r.blobId r.shardId r.body.length
        = .error (.BodyTooLarge r.body.length) := if_neg hr
    simp only [step, ExtentFile.appendRecord, hnew]
    exact h

/-- A file whose header is intact opens, with its cursor at the end. -/
lemma openFile_eq {extentId : ExtentId} (t : Bytes) {n : ℕ} (hn : EXTENT_HEADER_LEN ≤ n) :
    ExtentFile.openFile crc32c (((ExtentHeader.mk extentId).encode crc32c ++ t).take n)
      = .ok (extentId, ⟨((ExtentHeader.mk extentId).encode crc32c ++ t).take n,
        (((ExtentHeader.mk extentId).encode crc32c ++ t).take n).length⟩) := by
  have hlen : EXTENT_HEADER_LEN
      ≤ (((ExtentHeader.mk extentId).encode crc32c ++ t).take n).length := by
    rw [List.length_take, List.length_append, ExtentHeader.length_encode]
    omega
  have htake : (((ExtentHeader.mk extentId).encode crc32c ++ t).take n).take EXTENT_HEADER_LEN
      = (ExtentHeader.mk extentId).encode crc32c := by
    rw [List.take_take, min_eq_left hn]
    exact List.take_left' (ExtentHeader.length_encode crc32c _)
  rw [ExtentFile.openFile, if_neg (by omega), htake, ExtentHeader.decode_encode, max_eq_left hlen]
  rfl

/-- Cutting a rendered stream at or before the end of a leading part. -/
lemma take_render {f f' : Stream} (hf : f.Fits) (hpre : f' <+: f) {n : ℕ}
    (hn : n ≤ hdr.length + f'.len) :
    (hdr ++ f.render crc32c).take n = (hdr ++ f'.render crc32c).take n := by
  obtain ⟨rest, rfl⟩ := hpre
  have hf' : Stream.Fits f' := fun r hr => hf r (List.mem_append_left _ hr)
  rw [Stream.render_append, ← List.append_assoc, List.take_append_of_le_length]
  rw [List.length_append, hf'.length_render]
  exact hn

/-- Records of a whole stream survive a cut of the file exactly if they end by it. -/
lemma Streams.surviving_eq (h : Streams crc32c hdr f s) (cut : ℕ) :
    surviving s.log cut
      = Stream.scan (Stream.survivors (min cut s.file.writeOffset) EXTENT_HEADER_LEN f) := by
  rw [Stream.scan, h.fits.located_survivors, surviving, h.log]
  refine List.filter_congr fun e he => ?_
  have hwhole := h.whole e he
  simp only [decide_eq_decide]
  omega

/-- Cutting off what follows the valid end leaves the shorter of the two lengths. -/
lemma truncated_eq (bytes : Bytes) {n : ℕ} (hn : (bytes.take n).length = n) (validEnd : ℕ) :
    (if decide (validEnd < (bytes.take n).length) = true then
        ExtentFile.truncateTo ⟨bytes.take n, (bytes.take n).length⟩ validEnd
      else ⟨bytes.take n, (bytes.take n).length⟩)
      = (⟨bytes.take (min n validEnd), min n validEnd⟩ : ExtentFile) := by
  rw [hn]
  simp only [decide_eq_true_eq]
  split_ifs with hlt
  · have hpad : validEnd - (bytes.take n).length = 0 := by omega
    simp only [ExtentFile.truncateTo, hpad, List.replicate_zero, List.append_nil, List.take_take]
    rw [min_comm]
    simp [hlt.le]
  · rw [min_eq_left (by omega)]

/-- The recovery of a cut stream. -/
lemma recoverStream_render {f : Stream} (hf : f.Fits) (extentId : ExtentId) {n : ℕ}
    (hn : EXTENT_HEADER_LEN ≤ n) (hle : n ≤ f.writeOffset) :
    recoverStream crc32c (((ExtentHeader.mk extentId).encode crc32c ++ f.render crc32c).take n)
      = .ok (⟨((ExtentHeader.mk extentId).encode crc32c ++ f.render crc32c).take
            (min n (Stream.writeOffset (Stream.survivors n EXTENT_HEADER_LEN f))),
          min n (Stream.writeOffset (Stream.survivors n EXTENT_HEADER_LEN f))⟩,
        ⟨(Stream.scan (Stream.survivors n EXTENT_HEADER_LEN f)).map (Record.recovered crc32c),
          Stream.writeOffset (Stream.survivors n EXTENT_HEADER_LEN f),
          decide (Stream.writeOffset (Stream.survivors n EXTENT_HEADER_LEN f) < n)⟩) := by
  have hscan := ExtentFile.scanFrom_render crc32c ((ExtentHeader.mk extentId).encode crc32c) hf n
  have hopen := @openFile_eq crc32c extentId (f.render crc32c) n hn
  have hlen : (((ExtentHeader.mk extentId).encode crc32c ++ f.render crc32c).take n).length
      = n := by
    rw [List.length_take, List.length_append, ExtentHeader.length_encode, hf.length_render]
    rw [Stream.writeOffset] at hle
    omega
  rw [ExtentHeader.length_encode] at hscan
  rw [recoverStream, hopen]
  simp only [bind, Except.bind, ExtentFile.scan, hscan]
  rw [← truncated_eq _ hlen, hlen]
  rfl

/-- A recovery finds the surviving records, and the file streams them. -/
lemma Streams.recover (h : Streams crc32c hdr f s) {extentId : ExtentId}
    (hhdr : hdr = (ExtentHeader.mk extentId).encode crc32c) {cut : ℕ}
    (hcut : EXTENT_HEADER_LEN ≤ cut) :
    ∃ file recovery, recoverStream crc32c (s.file.bytes.take cut) = .ok (file, recovery)
      ∧ recovery.records = (surviving s.log cut).map (Record.recovered crc32c)
      ∧ ∃ f', Streams crc32c hdr f' ⟨file, surviving s.log cut⟩ := by
  have hhdrlen : hdr.length = EXTENT_HEADER_LEN := by rw [hhdr, ExtentHeader.length_encode]
  have hle := h.le hhdrlen
  have hheader := h.header
  rw [h.surviving_eq cut]
  generalize hn : min cut s.file.writeOffset = n
  have hbytes : s.file.bytes.take cut = (hdr ++ f.render crc32c).take n := by
    rw [h.bytes, List.take_take, hn]
  have hrec := @recoverStream_render crc32c f h.fits extentId n (by omega) (by omega)
  have hpre := Stream.survivors_isPrefix n EXTENT_HEADER_LEN f
  rw [← hhdr, ← hbytes] at hrec
  refine ⟨_, _, hrec, rfl, Stream.survivors n EXTENT_HEADER_LEN f, ?_⟩
  generalize hf' : Stream.survivors n EXTENT_HEADER_LEN f = f' at hpre
  have hfits : f'.Fits := fun r hr => h.fits r (hpre.subset hr)
  have hend : hdr.length + f'.len = f'.writeOffset := by rw [hhdrlen, Stream.writeOffset]
  have htake : (hdr ++ f.render crc32c).take (min n f'.writeOffset)
      = (hdr ++ f'.render crc32c).take (min n f'.writeOffset) :=
    take_render h.fits hpre (by omega)
  refine ⟨hfits, rfl, htake, ?_, ?_, ?_⟩
  · show min n f'.writeOffset = List.length _
    rw [htake, List.length_take, List.length_append, hfits.length_render, hend]
    omega
  · intro e he
    -- a survivor ends by the cut, and by the end of the stream
    have hcutoff : e.1 + e.2.rawLen ≤ n := by
      have hmem : e ∈ (Stream.located EXTENT_HEADER_LEN f).filter
          fun e => e.1 + e.2.rawLen ≤ n := by
        rw [← h.fits.located_survivors, hf']
        exact he
      simpa using (List.mem_filter.mp hmem).2
    exact le_min hcutoff (hfits.scan_bound he)
  · show _ ≤ min n f'.writeOffset
    rw [Stream.writeOffset]
    omega

/-! ## Runs -/

/-- The file of an extent streams some records. -/
def Sound (crc32c : Bytes → UInt32) (extentId : ExtentId) (s : FileHistory) : Prop :=
  ∃ f, Streams crc32c ((ExtentHeader.mk extentId).encode crc32c) f s

lemma sound_create (extentId : ExtentId) : Sound crc32c extentId (create crc32c extentId) := by
  refine ⟨[], Streams.of_holds ⟨?_, ExtentHeader.length_encode crc32c _, ?_, rfl⟩⟩
  · intro r hr
    exact absurd hr List.not_mem_nil
  · simp [ExtentFile.create, Stream.render]

lemma sound_step (extentId : ExtentId) (s : FileHistory) (a : FileStep)
    (h : Sound crc32c extentId s) (hlegal : s.KeepsHeader a ∧ s.AppendsAligned a) :
    Sound crc32c extentId (s.step crc32c a) := by
  obtain ⟨f, hf⟩ := h
  cases a with
  | append r => exact hf.append (ExtentHeader.length_encode crc32c _) hlegal.2 r
  | crash cut =>
    obtain ⟨file, recovery, hrec, -, hsound⟩ := hf.recover rfl hlegal.1
    simp only [step, hrec]
    exact hsound

end FileHistory

end

/-- While records are appended at aligned lengths only, a recovery after any further crash finds exactly
the records whose header, body and footer survived all crashes, at the offsets they were written to. -/
theorem recovery_finds_survivors (crc32c : Bytes → UInt32) (extentId : ExtentId)
    (steps : List FileStep)
    (hheader : Along (FileHistory.step crc32c) FileHistory.KeepsHeader
      (.create crc32c extentId) steps)
    (haligned : Along (FileHistory.step crc32c) FileHistory.AppendsAligned
      (.create crc32c extentId) steps)
    (cut : ℕ) (hcut : EXTENT_HEADER_LEN ≤ cut) :
    ∃ file recovery,
      recoverStream crc32c
          ((run (FileHistory.step crc32c) (.create crc32c extentId) steps).file.bytes.take cut)
        = .ok (file, recovery)
      ∧ recovery.records
        = (FileHistory.surviving
            (run (FileHistory.step crc32c) (.create crc32c extentId) steps).log cut).map
          (Record.recovered crc32c) := by
  obtain ⟨f, hf⟩ := Along.invariant (FileHistory.sound_step extentId)
    (FileHistory.sound_create extentId) (hheader.and haligned)
  obtain ⟨file, recovery, hrec, hrecords, -⟩ := hf.recover rfl hcut
  exact ⟨file, recovery, hrec, hrecords⟩

def smallRecord (blobId : BlobId) : Record := ⟨blobId, 1, [7, 7]⟩

/-- Two records, and a cut in the second one's footer. -/
theorem recovery_finds_survivors_demo :
    ∃ file recovery,
      recoverStream (fun _ => 0) ((run (FileHistory.step fun _ => 0)
          (.create (fun _ => 0) ⟨1, 5⟩)
          [.append (smallRecord 10), .append (smallRecord 11)]).file.bytes.take 8230)
        = .ok (file, recovery)
      ∧ recovery.records = [⟨10, 1, 4096, 2, 0⟩] := by
  obtain ⟨file, recovery, hrec, hrecords⟩ := recovery_finds_survivors (fun _ => 0) ⟨1, 5⟩
    [.append (smallRecord 10), .append (smallRecord 11)] ⟨trivial, trivial, trivial⟩
    ⟨rfl, rfl, trivial⟩ 8230 (by decide)
  exact ⟨file, recovery, hrec, hrecords.trans rfl⟩

/-- A record, a cut inside its padding, and another record. -/
def paddingCutSteps : List FileStep :=
  [.append (smallRecord 10), .crash 4200, .append (smallRecord 11)]

lemma fits_smallRecord (blobId : BlobId) : (smallRecord blobId).Fits := by
  show 2 < 2 ^ 32
  decide

/-- The file after the cut keeps the odd length, and the second record goes there. -/
lemma run_paddingCutSteps :
    run (FileHistory.step fun _ => 0) (.create (fun _ => 0) ⟨1, 5⟩) paddingCutSteps
      = ⟨⟨((ExtentHeader.mk ⟨1, 5⟩).encode (fun _ => 0)
            ++ (smallRecord 10).encode (fun _ => 0)).take 4200
          ++ (smallRecord 11).encode (fun _ => 0), 8296⟩,
        [(4096, smallRecord 10), (4200, smallRecord 11)]⟩ := by
  have hfits : Stream.Fits [smallRecord 10] := by
    intro r hr
    rw [List.mem_singleton.mp hr]
    exact fits_smallRecord 10
  have hrender : Stream.render (fun _ => 0) [smallRecord 10]
      = (smallRecord 10).encode (fun _ => 0) := List.flatMap_singleton ..
  have hfirst := @ExtentFile.appendRecord_end (fun _ => 0) _
    (ExtentFile.create (fun _ => 0) ⟨1, 5⟩)
    (ExtentHeader.length_encode (fun _ => 0) _).symm (fits_smallRecord 10)
  have hrec := @FileHistory.recoverStream_render (fun _ => 0) _ hfits ⟨1, 5⟩ 4200 (by decide)
    (by decide)
  rw [hrender] at hrec
  have hlen : (((ExtentHeader.mk ⟨1, 5⟩).encode (fun _ => 0)
      ++ (smallRecord 10).encode (fun _ => 0)).take 4200).length = 4200 := by
    rw [List.length_take, List.length_append, ExtentHeader.length_encode,
      (fits_smallRecord 10).length_encode]
    decide
  have hsecond := @ExtentFile.appendRecord_end (fun _ => 0) _
    ⟨((ExtentHeader.mk ⟨1, 5⟩).encode (fun _ => 0)
      ++ (smallRecord 10).encode (fun _ => 0)).take 4200, 4200⟩ hlen.symm (fits_smallRecord 11)
  rw [paddingCutSteps, run_cons, run_cons, run_cons, run_nil]
  have h1 : FileHistory.step (fun _ => 0) (.create (fun _ => 0) ⟨1, 5⟩) (.append (smallRecord 10))
      = ⟨⟨(ExtentHeader.mk ⟨1, 5⟩).encode (fun _ => 0)
          ++ (smallRecord 10).encode (fun _ => 0), 8192⟩, [(4096, smallRecord 10)]⟩ := by
    simp only [FileHistory.step, FileHistory.create, hfirst]
    rfl
  have h2 : FileHistory.step (fun _ => 0) ⟨⟨(ExtentHeader.mk ⟨1, 5⟩).encode (fun _ => 0)
          ++ (smallRecord 10).encode (fun _ => 0), 8192⟩, [(4096, smallRecord 10)]⟩ (.crash 4200)
      = ⟨⟨((ExtentHeader.mk ⟨1, 5⟩).encode (fun _ => 0)
          ++ (smallRecord 10).encode (fun _ => 0)).take 4200, 4200⟩,
        [(4096, smallRecord 10)]⟩ := by
    simp only [FileHistory.step, hrec]
    rfl
  rw [h1, h2]
  simp only [FileHistory.step, hsecond]
  rfl

/-- The scan reads the first record and goes on in the second one's padding. -/
lemma scanFrom_paddingCut :
    ExtentFile.scanFrom (fun _ => 0) (((ExtentHeader.mk ⟨1, 5⟩).encode (fun _ => 0)
        ++ (smallRecord 10).encode (fun _ => 0)).take 4200
          ++ (smallRecord 11).encode (fun _ => 0)) EXTENT_HEADER_LEN
      = ([⟨10, 1, 4096, 2, 0⟩], 8192) := by
  have hhdr : ((ExtentHeader.mk ⟨1, 5⟩).encode fun _ => 0).length = EXTENT_HEADER_LEN :=
    ExtentHeader.length_encode _ _
  have hcomplete := ExtentFile.recordAt_complete (fun _ => 0)
    ((ExtentHeader.mk ⟨1, 5⟩).encode fun _ => 0) [] (fits_smallRecord 10)
    (show _ ≤ 4200 by rw [hhdr]; decide)
  rw [List.append_nil, hhdr] at hcomplete
  have hfirst := ExtentFile.recordAt_append (fun _ => 0) hcomplete
    ((smallRecord 11).encode fun _ => 0)
  have hsecond : ExtentFile.recordAt (fun _ => 0) (((ExtentHeader.mk ⟨1, 5⟩).encode (fun _ => 0)
      ++ (smallRecord 10).encode (fun _ => 0)).take 4200
        ++ (smallRecord 11).encode (fun _ => 0)) 8192 = none := by
    have hpadded : (smallRecord 11).encode (fun _ => 0)
        = ((smallRecord 11).header.encode (fun _ => 0) ++ [7, 7] ++ encodeFooter 0)
          ++ List.replicate ((smallRecord 11).onDiskLen - (smallRecord 11).rawLen) 0 := rfl
    rw [hpadded, ← List.append_assoc]
    apply ExtentFile.recordAt_zeros
    rw [List.length_append]
    refine le_trans (Nat.add_le_add_right (List.length_take_le _ _) _) ?_
    simp [RECORD_HEADER_LEN, RECORD_FOOTER_LEN]
  rw [ExtentFile.scanFrom_of_some _ hfirst]
  have hnext : EXTENT_HEADER_LEN
      + recordOnDiskLen (Record.recovered (fun _ => 0) (EXTENT_HEADER_LEN, smallRecord 10)).bodyLen
        = 8192 := by decide
  rw [hnext, ExtentFile.scanFrom_of_none _ hsecond]
  rfl

/-- The second record is complete in the file, and the recovery finds only the first one. -/
theorem append_after_cut_padding_is_lost :
    Along (FileHistory.step fun _ => 0) FileHistory.KeepsHeader
        (.create (fun _ => 0) ⟨1, 5⟩) paddingCutSteps
      ∧ FileHistory.surviving (run (FileHistory.step fun _ => 0)
          (.create (fun _ => 0) ⟨1, 5⟩) paddingCutSteps).log 8296
        = [(4096, smallRecord 10), (4200, smallRecord 11)]
      ∧ (recoverStream (fun _ => 0) ((run (FileHistory.step fun _ => 0)
          (.create (fun _ => 0) ⟨1, 5⟩) paddingCutSteps).file.bytes.take 8296)).map
            (fun out => out.2.records)
        = .ok [⟨10, 1, 4096, 2, 0⟩] := by
  refine ⟨⟨trivial, show 4096 ≤ 4200 by decide, trivial, trivial⟩,
    by rw [run_paddingCutSteps]; rfl, ?_⟩
  rw [run_paddingCutSteps]
  have hbytes : (((ExtentHeader.mk ⟨1, 5⟩).encode (fun _ => 0)
        ++ (smallRecord 10).encode (fun _ => 0)).take 4200
          ++ (smallRecord 11).encode (fun _ => 0))
      = (ExtentHeader.mk ⟨1, 5⟩).encode (fun _ => 0)
        ++ (((smallRecord 10).encode fun _ => 0).take 104
          ++ (smallRecord 11).encode fun _ => 0) := by
    rw [List.take_append, ExtentHeader.length_encode, List.take_of_length_le, List.append_assoc]
    · rfl
    · rw [ExtentHeader.length_encode]
      decide
  have hlen : (((ExtentHeader.mk ⟨1, 5⟩).encode (fun _ => 0)
        ++ (smallRecord 10).encode (fun _ => 0)).take 4200
          ++ (smallRecord 11).encode (fun _ => 0)).length ≤ 8296 := by
    rw [List.length_append, (fits_smallRecord 11).length_encode]
    refine le_trans (Nat.add_le_add_right (List.length_take_le _ _) _) ?_
    decide
  have hopen := @FileHistory.openFile_eq (fun _ => 0) ⟨1, 5⟩
    (((smallRecord 10).encode fun _ => 0).take 104 ++ (smallRecord 11).encode fun _ => 0) 8296
    (by decide)
  rw [← hbytes, List.take_of_length_le hlen] at hopen
  rw [List.take_of_length_le hlen, recoverStream, hopen]
  simp only [bind, Except.bind, ExtentFile.scan, scanFrom_paddingCut]
  rfl

end Epoch
