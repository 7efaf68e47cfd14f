import Epoch.Meta.Footprint
import Epoch.Meta.References

/-!
# What an op enqueues

Whatever an op captures, it enqueues at one coordinate of its own and under its own sequence number,
as consecutively numbered entries (`Flat.apply_enqueues`, `Hier.apply_enqueues`).  Every entry
carries at least one slice that was referenced outside the queue before, which bounds how many there
are by the live references.
-/

namespace Epoch

/-- The references outside the delete queue. -/
def live (store : MetaStore) : Multiset Slice :=
  held .Meta store + held .Fs store + held .MetaSeg store + held .Upload store

lemma card_live (store : MetaStore) :
    (live store).card = (held .Meta store).card + (held .Fs store).card
      + (held .MetaSeg store).card + (held .Upload store).card := by
  simp [live, Multiset.card_add]

/-- The queue share of a batch: nothing, or one consecutively numbered run at the coordinate. -/
def Enqueues (store : MetaStore) (at_ : Option (BucketId × Bytes)) (seq : UInt64)
    (ops : List StoreOp) : Prop :=
  match at_ with
  | none => KvStore.on .Delq ops = []
  | some (b, k) => ∃ ts cs, cs.length ≤ (live store).card
      ∧ KvStore.on .Delq ops = (delqEntries (delqKey b k seq) ts 0 cs).map fun e => (e.1, some e.2)

variable {store : MetaStore} {seq : UInt64} {ops : List StoreOp}

lemma Enqueues.of_on_eq_nil (h : KvStore.on .Delq ops = []) (at_ : Option (BucketId × Bytes)) :
    Enqueues store at_ seq ops := by
  cases at_ with
  | none => exact h
  | some c => exact ⟨0, [], by simp, by simp [h, delqEntries]⟩

variable {at_ : Option (BucketId × Bytes)} {w : Bytes × Option MetaValue}

/-- Every queue write of such a batch is a put under `seq` at the coordinate. -/
lemma Enqueues.mem (h : Enqueues store at_ seq ops) (hw : w ∈ KvStore.on .Delq ops) :
    ∃ b k i, at_ = some (b, k) ∧ w.1 = delqKey b k seq i := by
  rcases at_ with _ | ⟨b, k⟩
  · rw [h] at hw
    simp at hw
  · obtain ⟨ts, cs, -, hon⟩ := h
    rw [hon] at hw
    obtain ⟨e, he, rfl⟩ := List.mem_map.mp hw
    obtain ⟨⟨c, i⟩, -, rfl⟩ := List.mem_map.mp he
    exact ⟨b, k, _, rfl, rfl⟩

lemma Enqueues.isSome (h : Enqueues store at_ seq ops) (hw : w ∈ KvStore.on .Delq ops) :
    w.2.isSome = true := by
  rcases at_ with _ | ⟨b, k⟩
  · rw [h] at hw
    simp at hw
  · obtain ⟨ts, cs, -, hon⟩ := h
    rw [hon] at hw
    obtain ⟨e, -, rfl⟩ := List.mem_map.mp hw
    rfl

/-- No two of its puts share a key. -/
lemma Enqueues.nodup (h : Enqueues store at_ seq ops) (hcard : (live store).card < 2 ^ 32) :
    ((KvStore.on .Delq ops).map Prod.fst).Nodup := by
  rcases at_ with _ | ⟨b, k⟩
  · rw [h]
    simp
  · obtain ⟨ts, cs, hlen, hon⟩ := h
    rw [hon, List.map_map]
    exact nodup_delqEntries (by omega)

/-! ## Flat ops -/

namespace Flat

lemma capturedOld_refs (store : MetaStore) (b : BucketId) (k : Bytes) :
    (capturedOld store b k : Multiset Slice) = capturedRefs .Meta store (headKey b k) b k := by
  unfold capturedOld capturedRefs
  cases hold : store.get .Meta (headKey b k) with
  | none => simp
  | some v =>
    rw [if_neg (by simp), entriesRefs_eq_coe]
    simp only [captured, refsAt, refsOf, hold, Option.elim_some, Multiset.coe_add]
    rfl

lemma length_chunks_capturedOld_le (store : MetaStore) (b : BucketId) (k : Bytes) :
    (chunks SEGMENT_SLICES (capturedOld store b k)).length
      ≤ (held .Meta store).card + (held .MetaSeg store).card := by
  refine le_trans (length_chunks_le (by decide) _) ?_
  rw [← Multiset.coe_card, capturedOld_refs]
  exact card_capturedRefs_le .Meta store (headKey b k) b k

lemma length_abandonedSlices_le (f : UInt32 → Bool) (e : Bytes × MetaValue) :
    (abandonedSlices f e.1 e.2).length ≤ (references .Upload e.2).length := by
  unfold abandonedSlices
  split
  · split_ifs
    · exact le_refl _
    · simp
  · simp

lemma length_abandonedChunks_le (f : UInt32 → Bool) (es : List (Bytes × MetaValue)) :
    (abandonedChunks f es).length ≤ (entriesRefs .Upload es).card := by
  induction es with
  | nil => simp [abandonedChunks]
  | cons e es ih =>
    have hcons : abandonedChunks f (e :: es)
        = chunks SEGMENT_SLICES (abandonedSlices f e.1 e.2) ++ abandonedChunks f es :=
      List.flatMap_cons
    have hhead := length_chunks_le (by decide : 0 < SEGMENT_SLICES) (abandonedSlices f e.1 e.2)
    have hslices := length_abandonedSlices_le f e
    rw [hcons, entriesRefs_cons, Multiset.card_add, Multiset.coe_card, List.length_append]
    omega

/-- A session walk abandons no more entries than the uploads hold references. -/
lemma length_abandonedChunks_scanSession_le (f : UInt32 → Bool) (store : MetaStore) (b : BucketId)
    (k : Bytes) (u : BitVec 128) :
    (abandonedChunks f (scanSession store b k u)).length ≤ (held .Upload store).card :=
  le_trans (length_abandonedChunks_le f _) (Multiset.card_le_card
    (entriesRefs_walk_le_held store (by decide) b k (be128 u) (by decide)))

lemma length_chunks_overwrittenPart_le (store : MetaStore) (b : BucketId) (k : Bytes)
    (u : BitVec 128) (p : UInt32) :
    (chunks SEGMENT_SLICES (overwrittenPart store b k u p)).length
      ≤ (held .Upload store).card := by
  refine le_trans (length_chunks_le (by decide) _) ?_
  refine le_trans ?_ (Multiset.card_le_card (refsAt_le_held store .Upload (uploadKey b k u p)))
  unfold overwrittenPart refsAt refsOf
  cases store.get .Upload (uploadKey b k u p) with
  | none => simp
  | some v => exact le_of_eq rfl

/-- **A flat op enqueues at its own key.** -/
theorem apply_enqueues {blake3 : Bytes → BitVec 256} {op : FlatOp} {out : ApplyOutcome}
    (h : apply blake3 store op seq = .ok out) :
    Enqueues store (some (op.bucket, op.key)) seq out.ops := by
  cases op with
  | Put b k head ts =>
    obtain rfl := Except.ok.inj h
    have hle := length_chunks_capturedOld_le store b k
    refine ⟨ts, chunks SEGMENT_SLICES (capturedOld store b k), ?_, ?_⟩
    · rw [card_live]
      omega
    · rw [on_applyPut, on_captureOld, on_packedPuts]
      simp [FlatOp.bucket, FlatOp.key]
  | Delete b k ts =>
    obtain rfl := Except.ok.inj h
    have hle := length_chunks_capturedOld_le store b k
    refine ⟨ts, chunks SEGMENT_SLICES (capturedOld store b k), ?_, ?_⟩
    · rw [card_live]
      omega
    · rw [on_applyDelete, on_captureOld]
      simp [FlatOp.bucket, FlatOp.key]
  | CreateMultipart b k u ts =>
    obtain rfl := Except.ok.inj h
    refine Enqueues.of_on_eq_nil ?_ _
    rcases applyCreate_cases store b k u ts with hc | ⟨-, hc⟩ <;> rw [hc] <;>
      simp [ApplyOutcome.noDelta, WriteOp.put]
  | PutPart b k u p part ts =>
    obtain rfl := Except.ok.inj h
    rcases applyPutPart_cases store b k u p part seq ts with hc | ⟨-, -, hon⟩
    · rw [hc]
      exact Enqueues.of_on_eq_nil rfl _
    · have hle := length_chunks_overwrittenPart_le store b k u p
      refine ⟨ts, chunks SEGMENT_SLICES (overwrittenPart store b k u p), ?_, ?_⟩
      · rw [card_live]
        omega
      · rw [hon]
        simp [FlatOp.bucket, FlatOp.key]
  | CompleteMultipart b k u parts ts =>
    rcases applyComplete_cases h with ⟨reason, rfl⟩ | ⟨found, size, -, -, -, -, hops⟩
    · exact Enqueues.of_on_eq_nil rfl _
    · have hold := length_chunks_capturedOld_le store b k
      have hsession := length_abandonedChunks_scanSession_le
        (fun p => p ∉ parts.map PartRef.partNo) store b k u
      refine ⟨ts, chunks SEGMENT_SLICES (capturedOld store b k)
        ++ abandonedChunks (fun p => p ∉ parts.map PartRef.partNo) (scanSession store b k u),
        ?_, ?_⟩
      · rw [card_live, List.length_append]
        omega
      · rw [hops, on_complete]
        simp [FlatOp.bucket, FlatOp.key]
  | AbortMultipart b k u ts =>
    obtain rfl := Except.ok.inj h
    have hsession := length_abandonedChunks_scanSession_le (fun _ => true) store b k u
    by_cases hs : store.get .Upload (uploadKey b k u 0) = none
    · refine Enqueues.of_on_eq_nil ?_ _
      rw [on_applyAbort, if_pos hs]
    · refine ⟨ts, abandonedChunks (fun _ => true) (scanSession store b k u), ?_, ?_⟩
      · rw [card_live]
        omega
      · rw [on_applyAbort, if_neg hs]
        simp [FlatOp.bucket, FlatOp.key]

end Flat

/-! ## Hierarchical ops -/

/-- The coordinate whose file a hierarchical op captures. -/
def HierOp.captures : HierOp → Option (BucketId × Bytes)
  | Write b i n .. | Unlink b i n _ => some (b, hierRoutingKey i n)
  | RenameSameDir b i _ target _ => some (b, hierRoutingKey i target)
  | _ => none

namespace Hier

lemma capturedOld_refs (store : MetaStore) (b : BucketId) (i : UInt64) (n : Bytes) :
    (capturedOld store b i n : Multiset Slice)
      = capturedRefs .Fs store (fsKey b i n) b (hierRoutingKey i n) := by
  unfold capturedOld capturedRefs
  cases hold : store.get .Fs (fsKey b i n) with
  | none => simp
  | some v =>
    rw [if_neg (by simp), entriesRefs_eq_coe, ← oldSegments_eq]
    simp only [refsAt, refsOf, hold, Option.elim_some, Multiset.coe_add]
    rfl

lemma length_chunks_capturedOld_le (store : MetaStore) (b : BucketId) (i : UInt64) (n : Bytes) :
    (chunks SEGMENT_SLICES (capturedOld store b i n)).length
      ≤ (held .Fs store).card + (held .MetaSeg store).card := by
  refine le_trans (length_chunks_le (by decide) _) ?_
  rw [← Multiset.coe_card, capturedOld_refs]
  exact card_capturedRefs_le .Fs store (fsKey b i n) b (hierRoutingKey i n)

lemma enqueues_capture {b : BucketId} {i : UInt64} {n : Bytes} (ts : Int64)
    (h : KvStore.on .Delq ops = KvStore.on .Delq (captureOldFile store b i n seq ts).1) :
    Enqueues store (some (b, hierRoutingKey i n)) seq ops := by
  have hle := length_chunks_capturedOld_le store b i n
  refine ⟨ts, chunks SEGMENT_SLICES (capturedOld store b i n), ?_, ?_⟩
  · rw [card_live]
    omega
  · rw [h, on_captureOldFile]
    simp

/-- **A hierarchical op enqueues at the name it captures.** -/
theorem apply_enqueues {op : HierOp} {ino ino' : InoAllocator} {out : ApplyOutcome}
    (h : apply store op seq ino = .ok (out, ino')) : Enqueues store op.captures seq out.ops := by
  cases op with
  | Write b i n size etag content http ts =>
    rcases applyWrite_cases h with ⟨reason, rfl, -⟩ | ⟨fileIno, delta, bump, -, -, hb, -, hops⟩
    · exact Enqueues.of_on_eq_nil rfl _
    · refine enqueues_capture ts ?_
      rw [hops]
      simp [on_packedPuts, hb.on_eq_nil]
  | Unlink b i n ts =>
    obtain ⟨ho, rfl⟩ := ok_of_map h
    rcases applyUnlink_cases ho with ⟨reason, rfl⟩ | ⟨-, rfl⟩ | ⟨f, bump, -, hb, -, hops⟩
    · exact Enqueues.of_on_eq_nil rfl _
    · exact Enqueues.of_on_eq_nil rfl _
    · refine enqueues_capture ts ?_
      rw [hops]
      simp [hb.on_eq_nil, WriteOp.delete]
  | RenameSameDir b i source target ts =>
    obtain ⟨ho, rfl⟩ := ok_of_map h
    rcases applyRenameSameDir_cases ho with
      ⟨reason, rfl⟩ | ⟨-, rfl⟩ | ⟨f, delta, bump, -, -, -, -, hb, -, hops⟩
    · exact Enqueues.of_on_eq_nil rfl _
    · exact Enqueues.of_on_eq_nil rfl _
    · refine enqueues_capture ts ?_
      rw [hops]
      simp [hb.on_eq_nil, WriteOp.delete, on_packedPuts, on_deleteSegments]
  | MkdirSentinel b i n ts =>
    refine (apply_writes h).on_eq_nil ?_
    rintro key ⟨child, ino', -, -, hc, -⟩
    cases hc
  | MkdirLink b i n child ts =>
    refine (apply_writes h).on_eq_nil ?_
    rintro key (⟨hc, -⟩ | ⟨⟨hc, -⟩, -⟩) <;> cases hc
  | RmdirUnlink b i n ts =>
    refine (apply_writes h).on_eq_nil ?_
    rintro key (⟨hc, -⟩ | ⟨⟨hc, -⟩, -⟩) <;> cases hc
  | RmdirSentinel b i ts =>
    refine (apply_writes h).on_eq_nil ?_
    rintro key ⟨⟨hc, -⟩, -⟩
    cases hc

end Hier

end Epoch
