import Epoch.Lib.Run
import Epoch.Meta.Flat.Batch

/-!
# The flat namespace as a map

The purpose of the flat namespace is a map from `(bucket, key)` to objects.  `FlatMap` is that map
in its own terms, with the parts of open uploads beside it; an accepted op updates it at its own
key and nowhere else (`FlatMap.step`).  A `FlatRun` carries the store and, as a history variable,
the map the accepted ops of the run have built.

**Refinement.**  As long as every capture walks only its own object's segments (`FlatGuard`), the
read path returns exactly what the map holds: `getObjectMeta_refines`.  The guard is a condition
on the store before the step.  It is needed: `getObjectMeta_lost_segment` deletes `a` and thereby
makes `ab` unreadable.
-/

namespace Epoch

/-! ## The abstract map -/

/-- What the flat namespace is for: objects with their full slice lists, and uploaded parts. -/
structure FlatMap where
  objects : BucketId → Bytes → Option ObjectHead
  parts : BucketId → Bytes → BitVec 128 → UInt32 → Option PartMeta

namespace FlatMap

def empty : FlatMap := ⟨fun _ _ => none, fun _ _ _ _ => none⟩

def setObject (m : FlatMap) (b : BucketId) (k : Bytes) (o : Option ObjectHead) : FlatMap :=
  { m with objects := fun b' k' => if (b', k') = (b, k) then o else m.objects b' k' }

def setPart (m : FlatMap) (b : BucketId) (k : Bytes) (u : BitVec 128) (p : UInt32)
    (part : PartMeta) : FlatMap :=
  { m with parts := fun b' k' u' p' =>
      if (b', k', u', p') = (b, k, u, p) then some part else m.parts b' k' u' p' }

/-- The parts a Complete lists, in listed order. -/
def listed (m : FlatMap) (b : BucketId) (k : Bytes) (u : BitVec 128) (refs : List PartRef) :
    List PartMeta :=
  refs.filterMap fun r => m.parts b k u r.partNo

/-- The object an accepted Complete creates. -/
def completed (m : FlatMap) (blake3 : Bytes → BitVec 256) (b : BucketId) (k : Bytes)
    (u : BitVec 128) (refs : List PartRef) (ts : Int64) : ObjectHead :=
  Flat.completedHead blake3 refs
    ((m.listed b k u refs).foldl (fun n p => saturatingAdd n p.size) 0)
    ((m.listed b k u refs).flatMap PartMeta.slices) ts

/-- The effect of an accepted op. -/
def step (blake3 : Bytes → BitVec 256) (m : FlatMap) : FlatOp → FlatMap
  | .Put b k head _ => m.setObject b k (some head)
  | .Delete b k _ => m.setObject b k none
  | .PutPart b k u p part _ => m.setPart b k u p part
  | .CompleteMultipart b k u refs ts => m.setObject b k (some (m.completed blake3 b k u refs ts))
  | .CreateMultipart .. => m
  | .AbortMultipart .. => m

end FlatMap

/-! ## Runs -/

/-- A store together with the map its accepted ops have built. -/
structure FlatRun where
  store : MetaStore
  map : FlatMap

namespace FlatRun

def init : FlatRun := ⟨KvStore.empty, FlatMap.empty⟩

/-- Apply one op under its sequence number and commit the batch; an op that errs commits
nothing. -/
def step (blake3 : Bytes → BitVec 256) (s : FlatRun) (a : FlatOp × UInt64) : FlatRun :=
  match Flat.apply blake3 s.store a.1 a.2 with
  | .error _ => s
  | .ok out =>
    ⟨s.store.applyBatch out.ops,
      if out.response.accepted then s.map.step blake3 a.1 else s.map⟩

end FlatRun

/-- If the object exists, no other object's segments lie under its key. -/
def CaptureIsolated (store : MetaStore) (b : BucketId) (k : Bytes) : Prop :=
  store.get .Meta (Flat.headKey b k) ≠ none → SegIsolated (store .MetaSeg) b k

instance (store : MetaStore) (b : BucketId) (k : Bytes) :
    Decidable (CaptureIsolated store b k) :=
  inferInstanceAs (Decidable (_ → _))

/-- The condition on a step: an op that captures an object finds only that object's segments, and
a new object's segments can be numbered by a `u32`. -/
def FlatGuard (s : FlatRun) (a : FlatOp × UInt64) : Prop :=
  match a.1 with
  | .Put b k head _ => CaptureIsolated s.store b k ∧ head.content.intoSlices.length ≤ maxSlices
  | .Delete b k _ => CaptureIsolated s.store b k
  | .CompleteMultipart b k u refs _ =>
    CaptureIsolated s.store b k
      ∧ ((s.map.listed b k u refs).flatMap PartMeta.slices).length ≤ maxSlices
  | _ => True

instance (s : FlatRun) (a : FlatOp × UInt64) : Decidable (FlatGuard s a) := by
  unfold FlatGuard
  cases a.1 <;> infer_instance

/-! ## The read path -/

def ContentHead.inlineData : ContentHead → Bytes
  | Inline bytes => bytes
  | Slices _ => []

/-- What a GET of an object with this full head returns. -/
def ObjectHead.view (h : ObjectHead) : Flat.ObjectMetaResponse :=
  ⟨Flat.headToProto (Flat.pack h).1, h.content.inlineData, h.content.intoSlices⟩

namespace Flat

lemma pack_segments_length {h : ObjectHead} (hb : h.content.intoSlices.length ≤ maxSlices) :
    (pack h).2.length < 2 ^ 32 := by
  unfold pack
  cases hc : h.content with
  | Inline bytes => simp
  | Slices slices =>
    rw [hc] at hb
    exact length_splitSlices_segments hb

/-- The stored objects are those of `objects`, split into heads and segments. -/
structure Stored (store : MetaStore) (objects : BucketId → Bytes → Option ObjectHead) : Prop where
  heads : ∀ b k, store.get .Meta (headKey b k)
    = (objects b k).map fun h => MetaValue.Head (pack h).1
  segs : ∀ b k, SegsAre (store .MetaSeg) b k ((objects b k).elim [] fun h => (pack h).2)
  bound : ∀ b k h, objects b k = some h → h.content.intoSlices.length ≤ maxSlices

/-- **The read path returns what is stored** under a key, in full and in order. -/
theorem getObjectMeta_of_head {store : MetaStore} {b : BucketId} {k : Bytes} {o : ObjectHead}
    (hhead : store.get .Meta (headKey b k) = some (.Head (pack o).1))
    (hsegs : SegsBegin (store .MetaSeg) b k (pack o).2)
    (hbound : o.content.intoSlices.length ≤ maxSlices) :
    getObjectMeta store b k = .ok (some o.view) := by
  have hlen := pack_segments_length hbound
  simp only [Flat.getObjectMeta, getHead, hhead, decode, MetaValue.head?, Except.map]
  cases hc : o.content with
  | Inline bytes => simp [pack, hc, ObjectHead.view, ContentHead.inlineData, ContentHead.intoSlices]
  | Slices slices =>
    have hp1 : (pack o).1.content = .Slices (splitSlices slices).1 := by simp [pack, hc]
    have hp2 : (pack o).2 = (splitSlices slices).2 := by simp [pack, hc]
    have hcount : (pack o).1.segCount.toNat = (pack o).2.length := by
      have : (pack o).1.segCount = UInt32.ofNat (pack o).2.length := by simp [pack, hc]
      rw [this, toNat_ofNat32 hlen]
    have hread : readSegments store (segmentKey b k) (pack o).1.segCount.toNat 0
        (splitSlices slices).1 = .ok slices := by
      rw [hcount, readSegments_of_segsBegin hsegs hlen, hp2, splitSlices_slices]
    simp only [hp1, hread, ObjectHead.view, hc, ContentHead.inlineData, ContentHead.intoSlices]

theorem Stored.getObjectMeta {store : MetaStore}
    {objects : BucketId → Bytes → Option ObjectHead} (h : Stored store objects) (b : BucketId)
    (k : Bytes) : getObjectMeta store b k = .ok ((objects b k).map ObjectHead.view) := by
  have hhead := h.heads b k
  have hsegs := h.segs b k
  cases ho : objects b k with
  | none =>
    rw [ho] at hhead
    simp [Flat.getObjectMeta, getHead, hhead]
  | some o =>
    rw [ho] at hhead hsegs
    exact getObjectMeta_of_head hhead hsegs.begin (h.bound b k o ho)

/-! ## Steps -/

variable {store : MetaStore} {objects : BucketId → Bytes → Option ObjectHead} {b : BucketId}
  {k : Bytes}

lemma headKey_inj {b b' : BucketId} {k k' : Bytes} :
    headKey b k = headKey b' k' ↔ b = b' ∧ k = k' := flatKey_head_inj

lemma captureSegs_eq (b : BucketId) (k : Bytes) (store : MetaStore) :
    ((captureSegs store b k).map fun e => (e.1, (none : Option MetaValue)))
      = if store.get .Meta (headKey b k) = none then [] else segDeletes store b k := by
  unfold captureSegs
  cases store.get .Meta (headKey b k) with
  | none => simp
  | some v => simp [oldSegments]

variable {ops : List StoreOp} {o : Option ObjectHead} {seq : UInt64} {ts : Int64}
  {extra : List (List Slice)}

lemma Stored.replace (h : Stored store objects) (hr : Replaces store b k o seq ts extra ops)
    (hiso : CaptureIsolated store b k)
    (hbound : ∀ h, o = some h → h.content.intoSlices.length ≤ maxSlices) :
    Stored (store.applyBatch ops)
      (fun b' k' => if (b', k') = (b, k) then o else objects b' k') := by
  have hlen : (o.elim [] fun h => (pack h).2).length < 2 ^ 32 := by
    cases o with
    | none => simp
    | some h => exact pack_segments_length (hbound h rfl)
  have hseg := hr.segs
  rw [captureSegs_eq] at hseg
  refine ⟨fun b' k' => ?_, fun b' k' => ?_, fun b' k' h' ho => ?_⟩
  · rw [MetaStore.get, KvStore.applyBatch_cf, hr.heads, OrdMap.writeAll_cons, OrdMap.writeAll_nil,
      OrdMap.get_write]
    by_cases hbk : (b', k') = (b, k)
    · obtain ⟨rfl, rfl⟩ := Prod.ext_iff.mp hbk
      simp
    · have hne : ¬ headKey b k = headKey b' k' := by
        rw [headKey_inj]
        rintro ⟨rfl, rfl⟩
        exact hbk rfl
      rw [if_neg hne, if_neg hbk]
      exact h.heads b' k'
  · rw [KvStore.applyBatch_cf, hseg]
    by_cases hbk : (b', k') = (b, k)
    · obtain ⟨rfl, rfl⟩ := Prod.ext_iff.mp hbk
      rw [if_pos rfl]
      by_cases hold : store.get .Meta (headKey b' k') = none
      · -- nothing was stored here, so there are no segments either
        rw [if_pos hold, List.nil_append]
        refine segsAre_put hlen ?_
        have hnone : objects b' k' = none := by
          rw [h.heads b' k'] at hold
          simpa using hold
        simpa [hnone] using h.segs b' k'
      · rw [if_neg hold]
        exact segsAre_replace hlen
    · rw [if_neg hbk]
      intro i
      by_cases hold : store.get .Meta (headKey b k) = none
      · rw [if_pos hold, List.nil_append, get_segWrites_other _ i hbk]
        exact h.segs b' k' i
      · rw [if_neg hold, segs_replace_frame (hiso hold) _ hbk]
        exact h.segs b' k' i
  · by_cases hbk : (b', k') = (b, k)
    · rw [if_pos hbk] at ho
      exact hbound h' ho
    · rw [if_neg hbk] at ho
      exact h.bound b' k' h' ho

/-- A batch that touches neither heads nor segments. -/
lemma Stored.frame (h : Stored store objects) (hmeta : KvStore.on .Meta ops = [])
    (hseg : KvStore.on .MetaSeg ops = []) :
    Stored (store.applyBatch ops) objects := by
  refine ⟨fun b k => ?_, fun b k => ?_, h.bound⟩
  · rw [MetaStore.get, KvStore.applyBatch_of_on_eq_nil hmeta]
    exact h.heads b k
  · rw [KvStore.applyBatch_of_on_eq_nil hseg]
    exact h.segs b k

/-- Every stored part is the one the map holds. -/
def PartsKnown (store : MetaStore)
    (parts : BucketId → Bytes → BitVec 128 → UInt32 → Option PartMeta) : Prop :=
  ∀ b k u p part, store.get .Upload (uploadKey b k u p) = some (.Part part) →
    parts b k u p = some part

lemma uploadKey_inj {b b' : BucketId} {k k' : Bytes} {u u' : BitVec 128} {p p' : UInt32} :
    uploadKey b k u p = uploadKey b' k' u' p' ↔ b = b' ∧ k = k' ∧ u = u' ∧ p = p' := by
  rw [uploadKey, uploadKey, flatKey_eq_iff (by simp), uploadPartSuffix_inj]

variable {parts : BucketId → Bytes → BitVec 128 → UInt32 → Option PartMeta}

/-- Deleting uploads and opening sessions adds no part. -/
lemma PartsKnown.of_no_parts (h : PartsKnown store parts)
    (hup : ∀ w ∈ KvStore.on .Upload ops, ∀ part, w.2 ≠ some (.Part part)) :
    PartsKnown (store.applyBatch ops) parts := by
  intro b k u p part hget
  rw [MetaStore.get, KvStore.applyBatch_cf] at hget
  rcases OrdMap.get_writeAll_eq_some hget with hw | hold
  · exact absurd rfl (hup _ hw part)
  · exact h b k u p part hold

lemma PartsKnown.replace (h : PartsKnown store parts)
    (hr : Replaces store b k o seq ts extra ops) : PartsKnown (store.applyBatch ops) parts :=
  h.of_no_parts fun w hw part hpart => Option.some_ne_none _ (hpart.symm.trans (hr.sessions w hw))

lemma filterMap_eq_of_forall₂ {α β : Type*} {f : α → Option β} {l : List α} {l' : List β}
    (h : List.Forall₂ (fun a b => f a = some b) l l') : l.filterMap f = l' := by
  induction h with
  | nil => rfl
  | cons hab _ ih => rw [List.filterMap_cons_some hab, ih]

end Flat

/-! ## Runs refine the map -/

/-- What every guarded run keeps: the store holds the map. -/
structure FlatInv (s : FlatRun) : Prop where
  stored : Flat.Stored s.store s.map.objects
  parts : Flat.PartsKnown s.store s.map.parts

lemma FlatInv.init : FlatInv FlatRun.init where
  stored := ⟨fun _ _ => rfl, fun _ _ _ => rfl, fun _ _ _ h => by cases h⟩
  parts := fun _ _ _ _ _ h => by cases h

section Step

open Flat

variable {blake3 : Bytes → BitVec 256} {s : FlatRun} {seq : UInt64} {b : BucketId} {k : Bytes}
  {ts : Int64} {u : BitVec 128}

lemma FlatInv.put (h : FlatInv s) {head : ObjectHead} (hg : FlatGuard s (.Put b k head ts, seq)) :
    FlatInv (FlatRun.step blake3 s (.Put b k head ts, seq)) where
  stored := by
    refine h.stored.replace (replaces_put ..) hg.1 ?_
    rintro _ ⟨⟩
    exact hg.2
  parts := h.parts.replace (replaces_put ..)

lemma FlatInv.delete (h : FlatInv s) (hg : FlatGuard s (.Delete b k ts, seq)) :
    FlatInv (FlatRun.step blake3 s (.Delete b k ts, seq)) where
  stored := h.stored.replace (replaces_delete ..) hg (by rintro _ ⟨⟩)
  parts := h.parts.replace (replaces_delete ..)

/-- A batch that leaves heads and segments alone and stores no part. -/
lemma FlatInv.frame (h : FlatInv s) {ops : List StoreOp} (hmeta : KvStore.on .Meta ops = [])
    (hseg : KvStore.on .MetaSeg ops = [])
    (hup : ∀ w ∈ KvStore.on .Upload ops, ∀ part, w.2 ≠ some (.Part part)) :
    FlatInv ⟨s.store.applyBatch ops, s.map⟩ :=
  ⟨h.stored.frame hmeta hseg, h.parts.of_no_parts hup⟩

lemma FlatRun.step_of_ok {op : FlatOp} (out : ApplyOutcome)
    (h : Flat.apply blake3 s.store op seq = .ok out) :
    FlatRun.step blake3 s (op, seq)
      = ⟨s.store.applyBatch out.ops,
          if out.response.accepted then s.map.step blake3 op else s.map⟩ := by
  simp [FlatRun.step, h]

lemma FlatInv.create (h : FlatInv s) :
    FlatInv (FlatRun.step blake3 s (.CreateMultipart b k u ts, seq)) := by
  rw [FlatRun.step_of_ok (applyCreate s.store b k u ts) rfl]
  rcases applyCreate_cases s.store b k u ts with hc | ⟨-, hc⟩
  · rw [hc]
    exact h
  · rw [hc]
    exact h.frame rfl rfl (by simp [ApplyOutcome.noDelta, WriteOp.put])

lemma FlatInv.putPart (h : FlatInv s) {p : UInt32} {part : PartMeta} :
    FlatInv (FlatRun.step blake3 s (.PutPart b k u p part ts, seq)) := by
  rw [FlatRun.step_of_ok (applyPutPart s.store b k u p part seq ts) rfl]
  rcases applyPutPart_cases s.store b k u p part seq ts with hc | ⟨-, hresp, hon⟩
  · rw [hc]
    exact h
  · rw [hresp]
    refine ⟨h.stored.frame (hon _) (hon _), ?_⟩
    intro b' k' u' p' part' hget
    simp only [MetaStore.get] at hget
    rw [KvStore.applyBatch_cf, hon, if_pos rfl, OrdMap.writeAll_cons,
      OrdMap.writeAll_nil, OrdMap.get_write] at hget
    simp only [MetaResponse.accepted, if_true, FlatMap.step, FlatMap.setPart, Prod.mk.injEq]
    by_cases hkey : uploadKey b k u p = uploadKey b' k' u' p'
    · rw [if_pos hkey] at hget
      obtain ⟨rfl, rfl, rfl, rfl⟩ := uploadKey_inj.mp hkey
      simpa using hget
    · rw [if_neg hkey] at hget
      rw [if_neg]
      · exact h.parts b' k' u' p' part' hget
      · rintro ⟨rfl, rfl, rfl, rfl⟩
        exact hkey rfl

lemma FlatInv.complete (h : FlatInv s) {refs : List PartRef}
    (hg : FlatGuard s (.CompleteMultipart b k u refs ts, seq)) :
    FlatInv (FlatRun.step blake3 s (.CompleteMultipart b k u refs ts, seq)) := by
  cases ha : applyComplete blake3 s.store b k u refs seq ts with
  | error e => simpa [FlatRun.step, Flat.apply, ha] using h
  | ok out =>
    have hstep : Flat.apply blake3 s.store (.CompleteMultipart b k u refs ts) seq = .ok out := ha
    rw [FlatRun.step_of_ok out hstep]
    rcases applyComplete_cases ha with ⟨reason, rfl⟩ | ⟨found, size, hall, hsize, -, ⟨hresp, -⟩, hops⟩
    · exact h
    · -- the listed parts are those the map knows
      have hlisted : s.map.listed b k u refs = found :=
        filterMap_eq_of_forall₂ (hall.imp fun r p hp => h.parts b k u r.partNo p hp.1)
      have hcomp : s.map.completed blake3 b k u refs ts
          = completedHead blake3 refs size (found.flatMap PartMeta.slices) ts := by
        rw [FlatMap.completed, hlisted, hsize]
      have hr := replaces_complete hops
      rw [hresp]
      simp only [MetaResponse.accepted, if_true, FlatMap.step, hcomp]
      refine ⟨h.stored.replace hr hg.1 ?_, h.parts.replace hr⟩
      rintro _ ⟨⟩
      rw [← hlisted]
      exact hg.2

lemma FlatInv.abort (h : FlatInv s) :
    FlatInv (FlatRun.step blake3 s (.AbortMultipart b k u ts, seq)) := by
  rw [FlatRun.step_of_ok (applyAbort s.store b k u seq ts) rfl]
  have hresp : (applyAbort s.store b k u seq ts).response = .None := by
    unfold applyAbort
    cases s.store.get .Upload (uploadKey b k u 0) <;> rfl
  rw [hresp]
  refine h.frame ?_ ?_ fun w hw => ?_
  · rw [on_applyAbort]; simp
  · rw [on_applyAbort]; simp
  · rw [on_applyAbort, if_pos rfl] at hw
    split_ifs at hw with hs
    · simp at hw
    · obtain ⟨e, -, rfl⟩ := List.mem_map.mp hw
      simp

/-- **One guarded step keeps the store and the map in agreement.** -/
theorem FlatInv.step (h : FlatInv s) {a : FlatOp × UInt64} (hg : FlatGuard s a) :
    FlatInv (FlatRun.step blake3 s a) := by
  obtain ⟨op, seq⟩ := a
  cases op with
  | Put b k head ts => exact h.put hg
  | Delete b k ts => exact h.delete hg
  | CreateMultipart b k u ts => exact h.create
  | PutPart b k u p part ts => exact h.putPart
  | CompleteMultipart b k u refs ts => exact h.complete hg
  | AbortMultipart b k u ts => exact h.abort

end Step

/-- **The flat namespace refines a map.**  After every run whose steps meet the guard, reading any
key returns exactly the object the map holds there: the content and full slice list, in order, of
the last accepted Put or Complete on that key that no Delete of it followed, and "absent" if there
is none. -/
theorem getObjectMeta_refines (blake3 : Bytes → BitVec 256) (ops : List (FlatOp × UInt64))
    (h : Along (FlatRun.step blake3) FlatGuard FlatRun.init ops) (b : BucketId) (k : Bytes) :
    Flat.getObjectMeta (run (FlatRun.step blake3) FlatRun.init ops).store b k
      = .ok (((run (FlatRun.step blake3) FlatRun.init ops).map.objects b k).map
          ObjectHead.view) := by
  have hinv : FlatInv (run (FlatRun.step blake3) FlatRun.init ops) :=
    h.invariant (fun _ _ hs hg => hs.step hg) FlatInv.init
  exact hinv.stored.getObjectMeta b k

/-- `ab` is large, `b` is not, and `b` is deleted: the run meets the guard and both read right. -/
theorem getObjectMeta_refines_demo :
    let ops := [(demoPut [0x61, 0x62] 65, 0), (demoPut [0x62] 1, 1), (.Delete 1 [0x62] 0, 2)]
    Along (FlatRun.step fun _ => 0) FlatGuard FlatRun.init ops
      ∧ ∀ b k, Flat.getObjectMeta (run (FlatRun.step fun _ => 0) FlatRun.init ops).store b k
        = .ok (((run (FlatRun.step fun _ => 0) FlatRun.init ops).map.objects b k).map
            ObjectHead.view) :=
  ⟨by decide +kernel, getObjectMeta_refines _ _ (by decide +kernel)⟩

/-- Deleting `a` deletes the segment of `ab` with it: the map still holds `ab`, whose last Put no
Delete followed, but reading it fails. -/
theorem getObjectMeta_lost_segment :
    let s := run (FlatRun.step fun _ => 0) FlatRun.init
      [(demoPut [0x61] 1, 0), (demoPut [0x61, 0x62] 65, 1), (.Delete 1 [0x61] 0, 2)]
    (s.map.objects 1 [0x61, 0x62]).isSome = true
      ∧ Flat.getObjectMeta s.store 1 [0x61, 0x62] = .error (.SegmentAbsent 0) := by
  decide +kernel

end Epoch
