import Epoch.Store.Record

/-!
# Extent files as streams of records (`extent/file.rs`)

An extent file is a header and the records appended to it, each padded to a multiple of 4096 bytes.
Here a file is the list of its records; where a record starts follows from the lengths of those
before it.
-/

namespace Epoch

/-- A blob record. -/
structure Record where
  blobId : BlobId
  shardId : ShardId
  body : Bytes
deriving DecidableEq

namespace Record

/-- The bytes a record occupies. -/
def onDiskLen (r : Record) : ℕ := recordOnDiskLen (UInt32.ofNat r.body.length)

lemma onDiskLen_pos (r : Record) : 0 < r.onDiskLen := by
  have h := recordOnDiskLen_ge (UInt32.ofNat r.body.length)
  simp only [RECORD_HEADER_LEN, RECORD_FOOTER_LEN] at h
  rw [onDiskLen]
  omega

end Record

/-- The records of an extent file, in order. -/
abbrev Stream := List Record

namespace Stream

/-- The bytes of the records. -/
def len (f : Stream) : ℕ := (f.map Record.onDiskLen).sum

/-- `write_offset`: where the next record goes. -/
def writeOffset (f : Stream) : ℕ := EXTENT_HEADER_LEN + f.len

/-- The records with their offsets, the first one at `start`. -/
def located (start : ℕ) : Stream → List (ℕ × Record)
  | [] => []
  | r :: f => (start, r) :: located (start + r.onDiskLen) f

/-- What `scan` finds. -/
def scan (f : Stream) : List (ℕ × Record) := located EXTENT_HEADER_LEN f

/-- `read_record`. -/
def readRecord (f : Stream) (offset : ℕ) : Option Record :=
  (f.scan.find? fun e => e.1 = offset).map Prod.snd

/-- `truncate_to`: the records that end by `size`. -/
def truncateTo (f : Stream) (size : ℕ) : Stream :=
  (f.scan.filter fun e => e.1 + e.2.onDiskLen ≤ size).map Prod.snd

/-- `append_record` has room: the length fits its field, and file offsets are signed. -/
def accepts (f : Stream) (body : Bytes) : Bool :=
  body.length < 2 ^ 32 && f.writeOffset + recordOnDiskLen (UInt32.ofNat body.length) < 2 ^ 63

@[simp] lemma len_nil : len [] = 0 := rfl

@[simp] lemma len_cons (r : Record) (f : Stream) : len (r :: f) = r.onDiskLen + len f := rfl

lemma len_append (f f' : Stream) : len (f ++ f') = len f + len f' := by
  simp [len]

lemma located_append (start : ℕ) (f f' : Stream) :
    located start (f ++ f') = located start f ++ located (start + len f) f' := by
  induction f generalizing start with
  | nil => simp [located]
  | cons r f ih => simp [located, ih, add_assoc]

lemma scan_append (f f' : Stream) : scan (f ++ f') = scan f ++ located f.writeOffset f' :=
  located_append _ _ _

lemma map_snd_located (start : ℕ) (f : Stream) : (located start f).map Prod.snd = f := by
  induction f generalizing start with
  | nil => rfl
  | cons r f ih => rw [located, List.map_cons, ih]

variable {f : Stream} {start offset : ℕ} {r : Record}

/-- Records lie inside the file, one after the other. -/
lemma located_bounds {e : ℕ × Record} (he : e ∈ located start f) :
    start ≤ e.1 ∧ e.1 + e.2.onDiskLen ≤ start + len f := by
  induction f generalizing start with
  | nil => simp [located] at he
  | cons r f ih =>
    rw [len_cons]
    rcases List.mem_cons.mp he with rfl | he
    · exact ⟨le_refl _, by simp only; omega⟩
    · have h := ih he
      omega

/-- A located record splits the stream there. -/
lemma exists_split_of_mem_located (h : (offset, r) ∈ located start f) :
    ∃ f₁ f₂, f = f₁ ++ r :: f₂ ∧ offset = start + len f₁ := by
  induction f generalizing start with
  | nil => simp [located] at h
  | cons r' f ih =>
    rcases List.mem_cons.mp h with heq | h
    · obtain ⟨rfl, rfl⟩ := Prod.mk.inj heq
      exact ⟨[], f, rfl, rfl⟩
    · obtain ⟨f₁, f₂, rfl, rfl⟩ := ih h
      exact ⟨r' :: f₁, f₂, rfl, by rw [len_cons]; omega⟩

lemma located_pairwise (start : ℕ) (f : Stream) :
    (located start f).Pairwise fun a b => a.1 + a.2.onDiskLen ≤ b.1 := by
  induction f generalizing start with
  | nil => exact List.Pairwise.nil
  | cons r f ih => exact List.Pairwise.cons (fun e he => (located_bounds he).1) (ih _)

/-- Offsets tell records apart. -/
lemma located_offset_inj {e e' : ℕ × Record} (he : e ∈ located start f)
    (he' : e' ∈ located start f) (h : e.1 = e'.1) : e = e' := by
  induction f generalizing start with
  | nil => simp [located] at he
  | cons r f ih =>
    have hpos := r.onDiskLen_pos
    rcases List.mem_cons.mp he with rfl | he <;> rcases List.mem_cons.mp he' with rfl | he'
    · rfl
    · have := (located_bounds he').1
      dsimp only at h
      omega
    · have := (located_bounds he).1
      dsimp only at h
      omega
    · exact ih he he'

/-- `read_record` finds exactly the records of the stream. -/
lemma readRecord_eq_some :
    f.readRecord offset = some r ↔ (offset, r) ∈ f.scan := by
  constructor
  · intro h
    obtain ⟨e, hfind, rfl⟩ := Option.map_eq_some_iff.mp h
    have hoff : e.1 = offset := by simpa using List.find?_some hfind
    rw [← hoff]
    exact List.mem_of_find?_eq_some hfind
  · intro h
    cases hfind : f.scan.find? (fun e => e.1 = offset) with
    | none => simpa using List.find?_eq_none.mp hfind _ h
    | some e =>
      have hoff : e.1 = offset := by simpa using List.find?_some hfind
      have heq : e = (offset, r) :=
        located_offset_inj (List.mem_of_find?_eq_some hfind) h hoff
      rw [readRecord, hfind, heq]
      rfl

/-- Records that were there stay where they were. -/
lemma readRecord_append (h : f.readRecord offset = some r) (f' : Stream) :
    readRecord (f ++ f') offset = some r := by
  rw [readRecord_eq_some, scan_append]
  exact List.mem_append_left _ (readRecord_eq_some.mp h)

/-- The record appended last is at the old write offset. -/
lemma readRecord_appended (f : Stream) (r : Record) :
    readRecord (f ++ [r]) f.writeOffset = some r := by
  rw [readRecord_eq_some, scan_append]
  exact List.mem_append_right _ List.mem_cons_self

/-- Cutting a file where a leading part of it ends leaves that part. -/
lemma truncateTo_append (f f' : Stream) : truncateTo (f ++ f') f.writeOffset = f := by
  have hkeep : f.scan.filter (fun e => e.1 + e.2.onDiskLen ≤ f.writeOffset) = f.scan := by
    rw [List.filter_eq_self]
    intro e he
    exact decide_eq_true (located_bounds he).2
  have hdrop : (located f.writeOffset f').filter
      (fun e => e.1 + e.2.onDiskLen ≤ f.writeOffset) = [] := by
    rw [List.filter_eq_nil_iff]
    intro e he
    have hstart := (located_bounds he).1
    have hpos := e.2.onDiskLen_pos
    simp only [decide_eq_true_eq]
    omega
  rw [truncateTo, scan_append, List.filter_append, hkeep, hdrop, List.append_nil]
  exact map_snd_located _ _

lemma writeOffset_append (f : Stream) (r : Record) :
    writeOffset (f ++ [r]) = f.writeOffset + r.onDiskLen := by
  rw [writeOffset, writeOffset, len_append, len_cons, len_nil]
  omega

end Stream

end Epoch
