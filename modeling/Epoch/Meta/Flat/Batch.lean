import Epoch.Meta.Flat.Ops

/-!
# What a flat batch writes

For each handler, the share of its batch in every column family.  Later proofs read batches only
through these lemmas.  Two helper notions describe a capture: `captureSegs`, the segment entries
it deletes, and `capturedOld`, the slices it enqueues; both are empty when there is no old head.
All enqueueing under one `seq` is one consecutively numbered run of `delqEntries`.
-/

namespace Epoch.Flat

variable {store : MetaStore} {b : BucketId} {k : Bytes} {seq : UInt64} {ts : Int64}

/-! ## Captures -/

/-- The segment entries a capture deletes. -/
def captureSegs (store : MetaStore) (b : BucketId) (k : Bytes) : List (Bytes × MetaValue) :=
  match store.get .Meta (headKey b k) with
  | none => []
  | some _ => oldSegments store b k

/-- The slices a capture enqueues. -/
def capturedOld (store : MetaStore) (b : BucketId) (k : Bytes) : List Slice :=
  match store.get .Meta (headKey b k) with
  | none => []
  | some oldHead => captured store b k oldHead

lemma on_captureOld (c : MetaCf) :
    KvStore.on c (captureOld store b k seq ts).ops
      = if c = .MetaSeg then (captureSegs store b k).map fun e => (e.1, none)
        else if c = .Delq then
          (delqEntries (delqKey b k seq) ts 0 (chunks SEGMENT_SLICES (capturedOld store b k))).map
            fun e => (e.1, some e.2)
        else [] := by
  unfold captureOld captureSegs capturedOld
  cases store.get .Meta (headKey b k) with
  | none => simp [delqEntries]
  | some oldHead =>
    simp only [KvStore.on_append, on_map_delete, enqueueDeleteSlices, on_enqueueDeleteSlices]
    cases c <;> simp

lemma nextSegNo_captureOld :
    (captureOld store b k seq ts).nextSegNo
      = UInt32.ofNat (chunks SEGMENT_SLICES (capturedOld store b k)).length := by
  unfold captureOld capturedOld
  cases store.get .Meta (headKey b k) with
  | none => rfl
  | some oldHead =>
    simp [enqueueDeleteSlices, Epoch.enqueueDeleteSlices, enqueueChunks_eq]

lemma on_packedPuts (c : MetaCf) (head : ObjectHead) :
    KvStore.on c (packedPuts b k head)
      = if c = .Meta then [(headKey b k, some (.Head (pack head).1))]
        else if c = .MetaSeg then segWrites b k (pack head).2
        else [] := by
  rw [packedPuts, KvStore.on_cons, on_segmentPuts]
  cases c <;> simp [WriteOp.put]

/-! ## Session discards -/

/-- The delete-queue chunks of the entries a discard abandons, in entry order. -/
def abandonedChunks (abandoned : UInt32 → Bool) (entries : List (Bytes × MetaValue)) :
    List (List Slice) :=
  entries.flatMap fun e => chunks SEGMENT_SLICES (abandonedSlices abandoned e.1 e.2)

lemma discardSession_spec (abandoned : UInt32 → Bool) (next : UInt32)
    (entries : List (Bytes × MetaValue)) :
    (discardSession b k seq ts abandoned next entries).2
        = next + UInt32.ofNat (abandonedChunks abandoned entries).length
      ∧ ∀ c, KvStore.on c (discardSession b k seq ts abandoned next entries).1
        = if c = .Upload then entries.map fun e => (e.1, none)
          else if c = .Delq then
            (delqEntries (delqKey b k seq) ts next (abandonedChunks abandoned entries)).map
              fun e => (e.1, some e.2)
          else [] := by
  induction entries generalizing next with
  | nil => exact ⟨by simp [discardSession, abandonedChunks], by
      simp [discardSession, abandonedChunks, delqEntries]⟩
  | cons e entries ih =>
    obtain ⟨key, raw⟩ := e
    have hcs : abandonedChunks abandoned ((key, raw) :: entries)
        = chunks SEGMENT_SLICES (abandonedSlices abandoned key raw)
          ++ abandonedChunks abandoned entries := List.flatMap_cons
    rw [discardSession, hcs, enqueueDeleteSlices, Epoch.enqueueDeleteSlices, enqueueChunks_eq]
    obtain ⟨ih1, ih2⟩ := ih (next
      + UInt32.ofNat (chunks SEGMENT_SLICES (abandonedSlices abandoned key raw)).length)
    refine ⟨?_, fun c => ?_⟩
    · simp only [ih1, List.length_append, UInt32.ofNat_add, UInt32.add_assoc]
    · simp only [KvStore.on_append, on_map_put, KvStore.on_cons, ih2, WriteOp.delete]
      cases c <;> simp [delqEntries_append]

/-! ## Batches of the six ops -/

lemma on_applyPut (c : MetaCf) (head : ObjectHead) :
    KvStore.on c (applyPut store b k head seq ts).ops
      = KvStore.on c (captureOld store b k seq ts).ops ++ KvStore.on c (packedPuts b k head) := by
  simp [applyPut]

lemma on_applyDelete (c : MetaCf) :
    KvStore.on c (applyDelete store b k seq ts).ops
      = KvStore.on c (captureOld store b k seq ts).ops
        ++ if c = .Meta then [(headKey b k, none)] else [] := by
  cases c <;> simp [applyDelete, WriteOp.delete]

lemma applyCreate_cases (store : MetaStore) (b : BucketId) (k : Bytes) (u : BitVec 128)
    (ts : Int64) :
    applyCreate store b k u ts = .noDelta [] .None
      ∨ store.get .Upload (uploadKey b k u 0) = none
        ∧ applyCreate store b k u ts
          = .noDelta [WriteOp.put .Upload (uploadKey b k u 0) (.Session ⟨u, ts⟩)] .None := by
  unfold applyCreate
  cases store.get .Upload (uploadKey b k u 0) with
  | none => exact Or.inr ⟨rfl, rfl⟩
  | some _ => exact Or.inl rfl

/-- The slices of the part an upload overwrites. -/
def overwrittenPart (store : MetaStore) (b : BucketId) (k : Bytes) (u : BitVec 128)
    (p : UInt32) : List Slice :=
  (store.get .Upload (uploadKey b k u p)).elim [] (extract .Upload)

/-- **What a PutPart does**: nothing without a session, else it replaces the part and enqueues
what the old one referenced. -/
theorem applyPutPart_cases (store : MetaStore) (b : BucketId) (k : Bytes) (u : BitVec 128)
    (p : UInt32) (part : PartMeta) (seq : UInt64) (ts : Int64) :
    applyPutPart store b k u p part seq ts = .noDelta [] (.Rejected "unknown upload id")
      ∨ store.get .Upload (uploadKey b k u 0) ≠ none
        ∧ (applyPutPart store b k u p part seq ts).response = .None
        ∧ ∀ c, KvStore.on c (applyPutPart store b k u p part seq ts).ops
          = if c = .Upload then [(uploadKey b k u p, some (.Part part))]
            else if c = .Delq then
              (delqEntries (delqKey b k seq) ts 0
                (chunks SEGMENT_SLICES (overwrittenPart store b k u p))).map
                  fun e => (e.1, some e.2)
            else [] := by
  unfold applyPutPart overwrittenPart
  cases store.get .Upload (uploadKey b k u 0) with
  | none => exact Or.inl rfl
  | some _ =>
    refine Or.inr ⟨by simp, rfl, fun c => ?_⟩
    cases hold : store.get .Upload (uploadKey b k u p) with
    | none =>
      simp only [hold]
      cases c <;> simp [ApplyOutcome.noDelta, WriteOp.put, delqEntries]
    | some old =>
      simp only [hold, ApplyOutcome.noDelta, KvStore.on_append, enqueueDeleteSlices,
        on_enqueueDeleteSlices]
      cases c <;> simp [WriteOp.put]

variable {u : BitVec 128} {parts : List PartRef}

/-- The validated slices of a part list, as `assembleParts` collects them. -/
lemma assembleParts_ok {size size' : UInt64} {acc slices : List Slice}
    (h : assembleParts store b k u parts size acc = .ok (.Assembled size' slices)) :
    ∃ found : List PartMeta,
      List.Forall₂ (fun (r : PartRef) p =>
        store.get .Upload (uploadKey b k u r.partNo) = some (.Part p) ∧ p.etag = r.etag)
          parts found
        ∧ slices = acc ++ found.flatMap PartMeta.slices
        ∧ size' = found.foldl (fun n p => saturatingAdd n p.size) size := by
  induction parts generalizing size acc with
  | nil =>
    simp only [assembleParts, Except.ok.injEq, Assembly.Assembled.injEq] at h
    exact ⟨[], List.Forall₂.nil, by simp [h.2], by simp [h.1]⟩
  | cons r parts ih =>
    rw [assembleParts] at h
    cases hg : store.get .Upload (uploadKey b k u r.partNo) with
    | none => simp [hg] at h
    | some raw =>
      simp only [hg] at h
      cases raw with
      | Part p =>
        simp only [decode, MetaValue.part?] at h
        split_ifs at h with hetag
        · simp at h
        obtain ⟨found, hall, hs, hsz⟩ := ih h
        refine ⟨p :: found, List.Forall₂.cons ⟨hg, not_not.mp hetag⟩ hall, ?_, ?_⟩
        · rw [hs, List.flatMap_cons, List.append_assoc]
        · rw [hsz, List.foldl_cons]
      | _ => simp [decode, MetaValue.part?] at h

/-- **What an accepted Complete does**: every listed part is stored with the listed etag, and the
batch captures the old object, discards the session and writes the assembled head. -/
theorem applyComplete_cases {blake3 : Bytes → BitVec 256} {out : ApplyOutcome}
    (h : applyComplete blake3 store b k u parts seq ts = .ok out) :
    (∃ reason, out = .noDelta [] (.Rejected reason))
      ∨ ∃ found : List PartMeta, ∃ size : UInt64,
        List.Forall₂ (fun (r : PartRef) p =>
          store.get .Upload (uploadKey b k u r.partNo) = some (.Part p) ∧ p.etag = r.etag)
            parts found
          ∧ size = found.foldl (fun n p => saturatingAdd n p.size) 0
          ∧ store.get .Upload (uploadKey b k u 0) ≠ none
          ∧ (out.response = .None ∧ out.delta = ⟨-(captureOld store b k seq ts).account.1.toInt64,
            -(captureOld store b k seq ts).account.2.1.toInt64,
            size.toInt64 - (captureOld store b k seq ts).account.2.2.toInt64⟩)
          ∧ out.ops = (captureOld store b k seq ts).ops
              ++ (discardSession b k seq ts (fun p => p ∉ parts.map PartRef.partNo)
                  (captureOld store b k seq ts).nextSegNo (scanSession store b k u)).1
              ++ packedPuts b k
                (completedHead blake3 parts size (found.flatMap PartMeta.slices) ts) := by
  unfold applyComplete at h
  cases hs : store.get .Upload (uploadKey b k u 0) with
  | none =>
    simp only [hs, Except.ok.injEq] at h
    exact Or.inl ⟨_, h.symm⟩
  | some session =>
    simp only [hs] at h
    split_ifs at h with hnil
    · simp only [Except.ok.injEq] at h
      exact Or.inl ⟨_, h.symm⟩
    · cases ha : assembleParts store b k u parts 0 [] with
      | error e => simp [ha] at h
      | ok a =>
        cases a with
        | Rejected reason =>
          simp only [ha, Except.ok.injEq] at h
          exact Or.inl ⟨_, h.symm⟩
        | Assembled size slices =>
          obtain ⟨found, hall, hslices, hsize⟩ := assembleParts_ok ha
          simp only [ha, Except.ok.injEq] at h
          rw [List.nil_append] at hslices
          subst hslices
          exact Or.inr ⟨found, size, hall, hsize, by simp, ⟨by rw [← h], by rw [← h]⟩, by rw [← h]⟩

/-- The shares of an accepted Complete's batch. -/
lemma on_complete (c : MetaCf) (u : BitVec 128) (parts : List PartRef) (head : ObjectHead) :
    KvStore.on c ((captureOld store b k seq ts).ops
        ++ (discardSession b k seq ts (fun p => p ∉ parts.map PartRef.partNo)
            (captureOld store b k seq ts).nextSegNo (scanSession store b k u)).1
        ++ packedPuts b k head)
      = if c = .Upload then (scanSession store b k u).map fun e => (e.1, none)
        else if c = .Delq then
          (delqEntries (delqKey b k seq) ts 0
            (chunks SEGMENT_SLICES (capturedOld store b k)
              ++ abandonedChunks (fun p => p ∉ parts.map PartRef.partNo)
                (scanSession store b k u))).map fun e => (e.1, some e.2)
        else KvStore.on c (captureOld store b k seq ts).ops
          ++ KvStore.on c (packedPuts b k head) := by
  simp only [KvStore.on_append, (discardSession_spec _ _ _).2, on_captureOld, on_packedPuts,
    nextSegNo_captureOld]
  cases c <;> simp [delqEntries_append]

lemma on_applyAbort (c : MetaCf) (u : BitVec 128) :
    KvStore.on c (applyAbort store b k u seq ts).ops
      = if store.get .Upload (uploadKey b k u 0) = none then []
        else if c = .Upload then (scanSession store b k u).map fun e => (e.1, none)
        else if c = .Delq then
          (delqEntries (delqKey b k seq) ts 0
            (abandonedChunks (fun _ => true) (scanSession store b k u))).map
              fun e => (e.1, some e.2)
        else [] := by
  unfold applyAbort
  cases store.get .Upload (uploadKey b k u 0) with
  | none => simp [ApplyOutcome.noDelta]
  | some session =>
    simp only [ApplyOutcome.noDelta, (discardSession_spec _ _ _).2]
    simp

/-- A batch that captures the object at `(b, k)` and stores `o` there.  It enqueues `extra` besides
the capture, and of sessions it only deletes entries. -/
structure Replaces (store : MetaStore) (b : BucketId) (k : Bytes) (o : Option ObjectHead)
    (seq : UInt64) (ts : Int64) (extra : List (List Slice)) (ops : List StoreOp) : Prop where
  heads : KvStore.on .Meta ops = [(headKey b k, o.map fun h => .Head (pack h).1)]
  segs : KvStore.on .MetaSeg ops = ((captureSegs store b k).map fun e => (e.1, none))
    ++ segWrites b k (o.elim [] fun h => (pack h).2)
  fs : KvStore.on .Fs ops = []
  delq : KvStore.on .Delq ops = (delqEntries (delqKey b k seq) ts 0
    (chunks SEGMENT_SLICES (capturedOld store b k) ++ extra)).map fun e => (e.1, some e.2)
  sessions : ∀ w ∈ KvStore.on .Upload ops, w.2 = none

lemma replaces_put (store : MetaStore) (b : BucketId) (k : Bytes) (head : ObjectHead) (seq : UInt64)
    (ts : Int64) :
    Replaces store b k (some head) seq ts [] (applyPut store b k head seq ts).ops := by
  constructor <;> simp [on_applyPut, on_captureOld, on_packedPuts]

lemma replaces_delete (store : MetaStore) (b : BucketId) (k : Bytes) (seq : UInt64) (ts : Int64) :
    Replaces store b k none seq ts [] (applyDelete store b k seq ts).ops := by
  constructor <;> simp [on_applyDelete, on_captureOld]

lemma replaces_complete {ops : List StoreOp} {head : ObjectHead}
    (h : ops = (captureOld store b k seq ts).ops ++ (discardSession b k seq ts (fun p => p ∉ parts.map PartRef.partNo) (captureOld store b k seq ts).nextSegNo (scanSession store b k u)).1 ++ packedPuts b k head) :
    Replaces store b k (some head) seq ts
      (abandonedChunks (fun p => p ∉ parts.map PartRef.partNo) (scanSession store b k u)) ops := by
  rw [h]
  constructor
  case sessions =>
    intro w hw
    rw [on_complete, if_pos rfl] at hw
    obtain ⟨e, -, rfl⟩ := List.mem_map.mp hw
    rfl
  all_goals
    rw [on_complete]
    simp [on_captureOld, on_packedPuts]

end Epoch.Flat
