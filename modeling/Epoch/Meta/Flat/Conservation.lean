import Epoch.Meta.Enqueue
import Epoch.Meta.Flat.Refinement

/-!
# Flat reference conservation

No op may leak a slice or reference it twice: in every state, the slices the accepted ops have
introduced are exactly the slices the store references, pending deletes included.

Six op kinds move references around, but each of them balances, and the balance is a sum over the
column families: `capture_balance` for replacing an object, `discard_balance` for ending a session,
`PutPart` by itself.  Captures balance even where their prefix walk strays into other objects'
segments, since what they delete they also enqueue.

The conditions of `LedgerGuard` are about part lists.  Part number `0` is the session record's own
and is never captured, a part listed twice is referenced twice, and an entry of another upload that
lies under this session's prefix is dropped if its part number is listed.
`refs_lost_partZero` exhibits the first.
-/

namespace Epoch

/-- The slices an op brings into the namespace. -/
def FlatOp.introduces : FlatOp → List Slice
  | Put _ _ head _ => head.content.intoSlices
  | PutPart _ _ _ _ part _ => part.slices
  | _ => []

/-- What an op with this response has introduced: nothing if it was rejected. -/
def FlatOp.introducedBy (op : FlatOp) : MetaResponse → List Slice
  | .Rejected _ => []
  | _ => op.introduces

/-- A store, the slices its accepted ops have introduced, and a bound on the sequence numbers
used so far. -/
structure FlatLedger where
  store : MetaStore
  introduced : Multiset Slice
  nextSeq : ℕ

namespace FlatLedger

def init : FlatLedger := ⟨KvStore.empty, 0, 0⟩

def step (blake3 : Bytes → BitVec 256) (s : FlatLedger) (a : FlatOp × UInt64) : FlatLedger :=
  match Flat.apply blake3 s.store a.1 a.2 with
  | .error _ => { s with nextSeq := a.2.toNat + 1 }
  | .ok out =>
    ⟨s.store.applyBatch out.ops,
      s.introduced + (a.1.introducedBy out.response : Multiset Slice), a.2.toNat + 1⟩

end FlatLedger

/-- Whether an upload entry has one of the listed part numbers. -/
def Flat.isListed (listed : List UInt32) (e : Bytes × MetaValue) : Bool :=
  match partNoOf e.1 with
  | some p => p ∈ listed
  | none => false

/-- The condition on a step.  Sequence numbers increase and no event enqueues 2³² entries; parts
are numbered from one; a Complete lists each part once, and no other upload's entry under the
session's prefix has a listed number. -/
def LedgerGuard (s : FlatLedger) (a : FlatOp × UInt64) : Prop :=
  s.nextSeq ≤ a.2.toNat ∧ (live s.store).card < 2 ^ 32
    ∧ match a.1 with
      | .Put _ _ head _ => head.content.intoSlices.length ≤ maxSlices
      | .PutPart _ _ _ p _ _ => p ≠ 0
      | .CompleteMultipart b k u refs _ =>
        (refs.map PartRef.partNo).Nodup
          ∧ ∀ e ∈ Flat.scanSession s.store b k u, Flat.isListed (refs.map PartRef.partNo) e →
              e.1.length = (Flat.uploadPrefix b k u).length + 4
      | _ => True

instance (s : FlatLedger) : (a : FlatOp × UInt64) → Decidable (LedgerGuard s a)
  | (.Put .., _) | (.Delete .., _) | (.CreateMultipart .., _) | (.PutPart .., _)
  | (.CompleteMultipart .., _) | (.AbortMultipart .., _) => inferInstanceAs (Decidable (_ ∧ _ ∧ _))

namespace Flat

variable {store : MetaStore} {ops : List StoreOp} {b : BucketId} {k : Bytes} {seq : UInt64}
  {ts : Int64} {o : Option ObjectHead} {extra : List (List Slice)}

/-! ## Replacing an object -/

lemma pack_refs (h : ObjectHead) :
    (references .Meta (.Head (pack h).1) : Multiset Slice) + segsRefs (pack h).2
      = (h.content.intoSlices : Multiset Slice) := by
  cases hc : h.content with
  | Inline bytes => simp [pack, hc, references, extract, MetaValue.head?, ContentHead.intoSlices,
      segsRefs]
  | Slices slices =>
    have hsplit := splitSlices_slices slices
    simp only [pack, hc, references, extract, MetaValue.head?, Option.map_some,
      Option.getD_some, ContentHead.intoSlices, segsRefs]
    rw [Multiset.coe_add, hsplit]

/-- The slices of an optional object. -/
def slicesOf (o : Option ObjectHead) : List Slice := o.elim [] fun h => h.content.intoSlices

/-- Every stored segment belongs to a stored head. -/
def Owned (store : MetaStore) : Prop :=
  ∀ b k i, (store .MetaSeg).get (segmentKey b k i) ≠ none →
    store.get .Meta (headKey b k) ≠ none

lemma Owned.segsAre_nil (h : Owned store) (hold : store.get .Meta (headKey b k) = none) :
    SegsAre (store .MetaSeg) b k [] := by
  intro i
  by_contra hne
  exact h b k i (by simpa using hne) hold

lemma capture_balance (howned : Owned store)
    (hlen : (o.elim [] fun h => (pack h).2).length < 2 ^ 32)
    (hr : Replaces store b k o seq ts extra ops) :
    held .Meta (store.applyBatch ops) + held .MetaSeg (store.applyBatch ops)
        + (capturedOld store b k : Multiset Slice)
      = held .Meta store + held .MetaSeg store + (slicesOf o : Multiset Slice) := by
  have hhead : held .Meta (store.applyBatch ops) + refsAt .Meta store (headKey b k)
      = held .Meta store + refsOf .Meta (o.map fun h => .Head (pack h).1) := by
    simpa using held_writes store hr.heads (by simp)
  have hnew : refsOf .Meta (o.map fun h => .Head (pack h).1)
      + segsRefs (o.elim [] fun h => (pack h).2) = (slicesOf o : Multiset Slice) := by
    cases o with
    | none => rfl
    | some h => exact pack_refs h
  have hseg := hr.segs
  rw [captureSegs_eq] at hseg
  rw [capturedOld_refs, replace_balance hlen howned.segsAre_nil hhead
    (by rw [KvStore.applyBatch_cf, hseg]), hnew]

lemma Owned.replace (h : Owned store) (hr : Replaces store b k o seq ts extra ops) :
    Owned (store.applyBatch ops) := by
  intro b' k' i hne
  rw [MetaStore.get, KvStore.applyBatch_cf, hr.heads, OrdMap.writeAll_cons, OrdMap.writeAll_nil,
    OrdMap.get_write]
  rw [KvStore.applyBatch_cf, hr.segs, captureSegs_eq, OrdMap.writeAll_append] at hne
  by_cases hbk : (b', k') = (b, k)
  · obtain ⟨rfl, rfl⟩ := Prod.ext_iff.mp hbk
    rw [if_pos rfl]
    cases o with
    | some head => simp
    | none =>
      -- a deleted object keeps no segment
      simp only [Option.elim_none, segWrites, List.zipIdx_nil, List.map_nil,
        OrdMap.writeAll_nil] at hne
      split_ifs at hne with hold
      · exact absurd hold (h b' k' i hne)
      · exact absurd (segsAre_nil_of_walk i) (by simpa using hne)
  · have hkey : ¬ headKey b k = headKey b' k' := by
      rw [headKey_inj]
      rintro ⟨rfl, rfl⟩
      exact hbk rfl
    rw [if_neg hkey]
    refine h b' k' i ?_
    rw [get_segWrites_other _ i hbk] at hne
    split_ifs at hne with hold
    · exact hne
    · rw [writeAll_segDeletes, OrdMap.get_filter] at hne
      intro hnone
      rw [hnone] at hne
      exact hne rfl

lemma Owned.frame (h : Owned store) (hmeta : KvStore.on .Meta ops = [])
    (hseg : KvStore.on .MetaSeg ops = []) : Owned (store.applyBatch ops) := by
  intro b k i hne
  rw [KvStore.applyBatch_of_on_eq_nil hseg] at hne
  rw [MetaStore.get, KvStore.applyBatch_of_on_eq_nil hmeta]
  exact h b k i hne

/-! ## Ending a session -/

lemma partNoOf_append (s : Bytes) (n : UInt32) : partNoOf (s ++ be32 n) = some n := by
  have hdrop : (s ++ be32 n).drop ((s ++ be32 n).length - 4) = be32 n := by
    rw [List.length_append, length_be32, Nat.add_sub_cancel, List.drop_left]
  simp only [partNoOf, hdrop, length_be32, if_true, beNat_be32]

lemma uploadKey_eq (b : BucketId) (k : Bytes) (u : BitVec 128) (p : UInt32) :
    uploadKey b k u p = uploadPrefix b k u ++ be32 p := by
  simp [uploadKey, uploadPrefix, flatKey, uploadPartSuffix]

lemma partNoOf_uploadKey (b : BucketId) (k : Bytes) (u : BitVec 128) (p : UInt32) :
    partNoOf (uploadKey b k u p) = some p := by
  rw [uploadKey_eq, partNoOf_append]

lemma partNoOf_ne_none {key : Bytes} (h : 4 ≤ key.length) : partNoOf key ≠ none := by
  have hlen : (key.drop (key.length - 4)).length = 4 := by
    rw [List.length_drop]
    omega
  simp [partNoOf, hlen]

lemma mem_scanSession {u : BitVec 128} {e : Bytes × MetaValue} :
    e ∈ scanSession store b k u
      ↔ store.get .Upload e.1 = some e.2 ∧ uploadPrefix b k u <+: e.1 :=
  mem_scanPrefix (by decide) (by decide)

lemma flatten_abandonedChunks (f : UInt32 → Bool) (es : List (Bytes × MetaValue)) :
    (abandonedChunks f es).flatten = es.flatMap fun e => abandonedSlices f e.1 e.2 := by
  induction es with
  | nil => rfl
  | cons e es ih =>
    have hcons : abandonedChunks f (e :: es)
        = chunks SEGMENT_SLICES (abandonedSlices f e.1 e.2) ++ abandonedChunks f es :=
      List.flatMap_cons
    rw [hcons, List.flatten_append, ih, flatten_chunks (by decide), List.flatMap_cons]

/-- No entry numbered zero holds references: part zero is the session record. -/
def NoPartZero (store : MetaStore) : Prop :=
  ∀ key v, store.get .Upload key = some v → partNoOf key = some 0 → references .Upload v = []

lemma NoPartZero.writes (h : NoPartZero store)
    (hw : ∀ key v, (key, some v) ∈ KvStore.on .Upload ops → partNoOf key = some 0 →
      references .Upload v = []) : NoPartZero (store.applyBatch ops) := by
  intro key v hget
  rw [MetaStore.get, KvStore.applyBatch_cf] at hget
  rcases OrdMap.get_writeAll_eq_some hget with hmem | hold
  · exact hw key v hmem
  · exact h key v hold

/-- What a discard does not abandon is what was listed. -/
lemma entriesRefs_eq_abandoned_add (listed : List UInt32) {es : List (Bytes × MetaValue)}
    (hzero : ∀ e ∈ es, partNoOf e.1 = some 0 → references .Upload e.2 = [])
    (hsome : ∀ e ∈ es, partNoOf e.1 ≠ none) :
    entriesRefs .Upload es
      = ((es.flatMap fun e => abandonedSlices (fun p => p ∉ listed) e.1 e.2 : List Slice)
          : Multiset Slice)
        + entriesRefs .Upload (es.filter (isListed listed)) := by
  induction es with
  | nil => rfl
  | cons e es ih =>
    have ih' := ih (fun e he => hzero e (List.mem_cons_of_mem _ he))
      (fun e he => hsome e (List.mem_cons_of_mem _ he))
    have hz := hzero e List.mem_cons_self
    obtain ⟨p, hp⟩ := Option.ne_none_iff_exists'.mp (hsome e List.mem_cons_self)
    rw [hp] at hz
    rw [entriesRefs_cons, ih', List.flatMap_cons, ← Multiset.coe_add, List.filter_cons]
    simp only [isListed, abandonedSlices, hp]
    by_cases hl : p ∈ listed
    · simp only [hl, not_true_eq_false, decide_false, Bool.false_eq_true, and_false, if_false,
        decide_true, if_true, entriesRefs_cons, Multiset.coe_nil]
      abel
    · by_cases hp0 : p = 0
      · subst hp0
        simp [hl, hz rfl]
      · simp only [hl, not_false_eq_true, decide_true, hp0, ne_eq, and_self, if_true,
          decide_false, Bool.false_eq_true, if_false]
        rw [add_assoc]
        rfl

/-- The stored entries of a validated part list. -/
def listedEntries (b : BucketId) (k : Bytes) (u : BitVec 128) (refs : List PartRef)
    (found : List PartMeta) : List (Bytes × MetaValue) :=
  List.zipWith (fun r p => (uploadKey b k u r.partNo, MetaValue.Part p)) refs found

section Listed

variable {u : BitVec 128} {refs : List PartRef} {found : List PartMeta}
  (hall : List.Forall₂ (fun (r : PartRef) p =>
    store.get .Upload (uploadKey b k u r.partNo) = some (.Part p) ∧ p.etag = r.etag) refs found)

include hall

lemma entriesRefs_listedEntries :
    entriesRefs .Upload (listedEntries b k u refs found)
      = ((found.flatMap PartMeta.slices : List Slice) : Multiset Slice) := by
  induction hall with
  | nil => rfl
  | cons _ _ ih =>
    rw [listedEntries] at ih ⊢
    rw [List.zipWith_cons_cons, entriesRefs_cons, ih, List.flatMap_cons, ← Multiset.coe_add]
    rfl

lemma mem_listedEntries {e : Bytes × MetaValue} :
    e ∈ listedEntries b k u refs found
      ↔ ∃ r ∈ refs, e.1 = uploadKey b k u r.partNo ∧ store.get .Upload e.1 = some e.2 := by
  induction hall with
  | nil => simp [listedEntries]
  | @cons r p refs found hr _ ih =>
    rw [listedEntries] at ih ⊢
    rw [List.zipWith_cons_cons, List.mem_cons, ih]
    constructor
    · rintro (rfl | ⟨r', hr', he⟩)
      · exact ⟨r, List.mem_cons_self, rfl, hr.1⟩
      · exact ⟨r', List.mem_cons_of_mem _ hr', he⟩
    · rintro ⟨r', hr', hkey, hget⟩
      rcases List.mem_cons.mp hr' with rfl | hr'
      · left
        rw [hkey, hr.1] at hget
        exact Prod.ext hkey (Option.some.inj hget).symm
      · exact Or.inr ⟨r', hr', hkey, hget⟩

lemma map_fst_listedEntries :
    (listedEntries b k u refs found).map Prod.fst
      = (refs.map PartRef.partNo).map (uploadKey b k u) := by
  induction hall with
  | nil => rfl
  | cons _ _ ih =>
    rw [listedEntries] at ih ⊢
    rw [List.zipWith_cons_cons, List.map_cons, ih]
    rfl

lemma nodup_listedEntries (hnd : (refs.map PartRef.partNo).Nodup) :
    (listedEntries b k u refs found).Nodup := by
  refine List.Nodup.of_map Prod.fst ?_
  rw [map_fst_listedEntries hall]
  exact hnd.map fun p q hpq => (uploadKey_inj.mp hpq).2.2.2

/-- The listed entries of the walk are the validated parts, when no other upload's entry under
the prefix has a listed number. -/
lemma entriesRefs_listed (hnd : (refs.map PartRef.partNo).Nodup)
    (hown : ∀ e ∈ scanSession store b k u, isListed (refs.map PartRef.partNo) e →
      e.1.length = (uploadPrefix b k u).length + 4) :
    entriesRefs .Upload
        ((scanSession store b k u).filter (isListed (refs.map PartRef.partNo)))
      = ((found.flatMap PartMeta.slices : List Slice) : Multiset Slice) := by
  rw [← entriesRefs_listedEntries hall]
  have hperm : ((scanSession store b k u).filter (isListed (refs.map PartRef.partNo))).Perm
      (listedEntries b k u refs found) := by
    have hnd1 : (scanSession store b k u).Nodup := by
      rw [scanSession, uploadPrefix, scanPrefix_eq store (by decide) b k _ (by decide)]
      exact (store .Upload).nodup_toList.filter _
    refine (List.perm_ext_iff_of_nodup (hnd1.filter _) (nodup_listedEntries hall hnd)).mpr ?_
    intro e
    rw [List.mem_filter, mem_listedEntries hall]
    constructor
    · rintro ⟨he, hl⟩
      obtain ⟨hget, hpre⟩ := mem_scanSession.mp he
      cases hp : partNoOf e.1 with
      | none => simp [isListed, hp] at hl
      | some p =>
        have hmem : p ∈ refs.map PartRef.partNo := by simpa [isListed, hp] using hl
        obtain ⟨t, ht, hkey⟩ := exists_suffix_of_prefix hpre (hown e he hl)
        obtain ⟨n, rfl⟩ := exists_be32 ht
        rw [hkey, partNoOf_append, Option.some.injEq] at hp
        subst hp
        obtain ⟨r, hr, hrp⟩ := List.mem_map.mp hmem
        exact ⟨r, hr, by rw [hkey, hrp, uploadKey_eq], hget⟩
    · rintro ⟨r, hr, hkey, hget⟩
      refine ⟨mem_scanSession.mpr ⟨hget, ?_⟩, ?_⟩
      · rw [hkey, uploadKey_eq]
        exact List.prefix_append _ _
      · rw [isListed, hkey, partNoOf_uploadKey]
        simpa using ⟨r, hr, rfl⟩
  exact (hperm.map _).sum_eq

end Listed

end Flat

/-! ## Steps conserve -/

/-- What every guarded run keeps. -/
structure LedgerInv (s : FlatLedger) : Prop where
  conserved : refs s.store = s.introduced
  below : DelqBelow s.store s.nextSeq
  owned : Flat.Owned s.store
  noPartZero : Flat.NoPartZero s.store

lemma LedgerInv.init : LedgerInv FlatLedger.init where
  conserved := rfl
  below := fun _ _ h => by cases h
  owned := fun _ _ _ h => absurd rfl h
  noPartZero := fun _ _ h => by cases h

section LedgerStep

open Flat

variable {blake3 : Bytes → BitVec 256} {s : FlatLedger} {seq : UInt64}

lemma FlatLedger.step_of_ok {op : FlatOp} (out : ApplyOutcome)
    (h : Flat.apply blake3 s.store op seq = .ok out) :
    FlatLedger.step blake3 s (op, seq)
      = ⟨s.store.applyBatch out.ops,
          s.introduced + (op.introducedBy out.response : Multiset Slice), seq.toNat + 1⟩ := by
  simp [FlatLedger.step, h]

/-- A step that commits nothing. -/
lemma LedgerInv.idle (h : LedgerInv s) (hseq : s.nextSeq ≤ seq.toNat) :
    LedgerInv ⟨s.store, s.introduced, seq.toNat + 1⟩ :=
  ⟨h.conserved, h.below.mono (Nat.le_succ_of_le hseq), h.owned, h.noPartZero⟩

variable {b : BucketId} {k : Bytes} {ts : Int64} {u : BitVec 128} {ops : List StoreOp}
  {new : Multiset Slice}

/-- **The common balance.**  Heads and segments give up `old` for `put` and sessions `gone` for
`gained`; the batch enqueues `cs`, and the op introduces `new`. -/
lemma LedgerInv.settle (h : LedgerInv s) {cs : List (List Slice)} {old put gone gained : Multiset Slice}
    (hseq : s.nextSeq ≤ seq.toNat) (hcount : cs.length ≤ 2 ^ 32)
    (hdelq : KvStore.on .Delq ops
      = (delqEntries (delqKey b k seq) ts 0 cs).map fun e => (e.1, some e.2))
    (hfs : KvStore.on .Fs ops = [])
    (hobject : held .Meta (s.store.applyBatch ops) + held .MetaSeg (s.store.applyBatch ops) + old
      = held .Meta s.store + held .MetaSeg s.store + put)
    (hup : held .Upload (s.store.applyBatch ops) + gone = held .Upload s.store + gained)
    (hnew : (cs.flatten : Multiset Slice) + put + gained = old + gone + new) :
    refs (s.store.applyBatch ops) = s.introduced + new := by
  have hD := held_enqueue (h.below.mono hseq) hcount hdelq
  have hF : held .Fs (s.store.applyBatch ops) = held .Fs s.store := held_frame hfs
  refine add_right_cancel (b := old + gone) ?_
  rw [← h.conserved]
  unfold refs
  rw [hD, hF]
  calc held .Meta (s.store.applyBatch ops) + held .Fs s.store
        + held .MetaSeg (s.store.applyBatch ops) + held .Upload (s.store.applyBatch ops)
        + (held .Delq s.store + (cs.flatten : Multiset Slice)) + (old + gone)
      = (held .Meta (s.store.applyBatch ops) + held .MetaSeg (s.store.applyBatch ops) + old)
        + held .Fs s.store + (held .Upload (s.store.applyBatch ops) + gone)
        + held .Delq s.store + (cs.flatten : Multiset Slice) := by abel
    _ = held .Meta s.store + held .Fs s.store + held .MetaSeg s.store + held .Upload s.store
        + held .Delq s.store + ((cs.flatten : Multiset Slice) + put + gained) := by
          rw [hobject, hup]; abel
    _ = held .Meta s.store + held .Fs s.store + held .MetaSeg s.store + held .Upload s.store
        + held .Delq s.store + new + (old + gone) := by rw [hnew]; abel

/-- Put, Delete and Complete: `gone` is what the upload family gives up. -/
lemma LedgerInv.replace (h : LedgerInv s) {o : Option ObjectHead} {extra : List (List Slice)}
    (hr : Replaces s.store b k o seq ts extra ops) (gone : Multiset Slice)
    (hseq : s.nextSeq ≤ seq.toNat) (hlen : (o.elim [] fun h => (pack h).2).length < 2 ^ 32)
    (hcount : (chunks SEGMENT_SLICES (capturedOld s.store b k) ++ extra).length ≤ 2 ^ 32)
    (hup : held .Upload (s.store.applyBatch ops) + gone = held .Upload s.store)
    (hnew : (extra.flatten : Multiset Slice) + (slicesOf o : Multiset Slice) = gone + new) :
    LedgerInv ⟨s.store.applyBatch ops, s.introduced + new, seq.toNat + 1⟩ where
  below := h.below.enqueue hseq hr.delq
  owned := h.owned.replace hr
  noPartZero := h.noPartZero.writes fun _ _ hmem => absurd (hr.sessions _ hmem) (by simp)
  conserved := by
    refine h.settle hseq hcount hr.delq hr.fs (capture_balance h.owned hlen hr)
      (hup.trans (add_zero _).symm) ?_
    rw [List.flatten_append, flatten_chunks (by decide), ← Multiset.coe_add, add_zero, add_assoc,
      hnew, add_assoc]

lemma LedgerInv.put (h : LedgerInv s) {head : ObjectHead}
    (hg : LedgerGuard s (.Put b k head ts, seq)) :
    LedgerInv (FlatLedger.step blake3 s (.Put b k head ts, seq)) := by
  obtain ⟨hseq, hcard, hlen⟩ := hg
  rw [FlatLedger.step_of_ok (applyPut s.store b k head seq ts) rfl]
  have hchunks := length_chunks_capturedOld_le s.store b k
  rw [card_live] at hcard
  have hup : KvStore.on .Upload (applyPut s.store b k head seq ts).ops = [] := by
    rw [on_applyPut, on_captureOld, on_packedPuts]; rfl
  refine h.replace (replaces_put ..) 0 hseq (pack_segments_length hlen) ?_ ?_ ?_
  · rw [List.append_nil]; omega
  · rw [add_zero, held_frame hup]
  · simp [slicesOf, FlatOp.introducedBy, FlatOp.introduces, applyPut]

lemma LedgerInv.delete (h : LedgerInv s) (hg : LedgerGuard s (.Delete b k ts, seq)) :
    LedgerInv (FlatLedger.step blake3 s (.Delete b k ts, seq)) := by
  obtain ⟨hseq, hcard, -⟩ := hg
  rw [FlatLedger.step_of_ok (applyDelete s.store b k seq ts) rfl]
  have hchunks := length_chunks_capturedOld_le s.store b k
  rw [card_live] at hcard
  have hup : KvStore.on .Upload (applyDelete s.store b k seq ts).ops = [] := by
    rw [on_applyDelete, on_captureOld]; rfl
  refine h.replace (replaces_delete ..) 0 hseq (by simp) ?_ ?_ ?_
  · rw [List.append_nil]; omega
  · rw [add_zero, held_frame hup]
  · simp [slicesOf, FlatOp.introducedBy, FlatOp.introduces, applyDelete]

/-- The session ops: the upload family loses `gone` and gains `gained`. -/
lemma LedgerInv.session (h : LedgerInv s) {ops : List StoreOp} (b : BucketId) (k : Bytes)
    (ts : Int64) (cs : List (List Slice)) (gone gained : Multiset Slice) {new : Multiset Slice}
    (hseq : s.nextSeq ≤ seq.toNat) (hcount : cs.length ≤ 2 ^ 32)
    (hon : ∀ c, c ≠ .Upload → c ≠ .Delq → KvStore.on c ops = [])
    (hdelq : KvStore.on .Delq ops
      = (delqEntries (delqKey b k seq) ts 0 cs).map fun e => (e.1, some e.2))
    (hup : held .Upload (s.store.applyBatch ops) + gone = held .Upload s.store + gained)
    (hzero : NoPartZero (s.store.applyBatch ops))
    (hnew : (cs.flatten : Multiset Slice) + gained = gone + new) :
    LedgerInv ⟨s.store.applyBatch ops, s.introduced + new, seq.toNat + 1⟩ where
  below := h.below.enqueue hseq hdelq
  owned := h.owned.frame (hon _ (by decide) (by decide)) (hon _ (by decide) (by decide))
  noPartZero := hzero
  conserved := by
    have hobject : held .Meta (s.store.applyBatch ops) + held .MetaSeg (s.store.applyBatch ops) + 0
        = held .Meta s.store + held .MetaSeg s.store + 0 := by
      rw [held_frame (hon _ (by decide) (by decide)), held_frame (hon _ (by decide) (by decide))]
    refine h.settle hseq hcount hdelq (hon _ (by decide) (by decide)) hobject hup ?_
    rw [add_zero, zero_add, hnew]

lemma LedgerInv.create (h : LedgerInv s) (hg : LedgerGuard s (.CreateMultipart b k u ts, seq)) :
    LedgerInv (FlatLedger.step blake3 s (.CreateMultipart b k u ts, seq)) := by
  obtain ⟨hseq, -, -⟩ := hg
  rw [FlatLedger.step_of_ok (applyCreate s.store b k u ts) rfl]
  rcases applyCreate_cases s.store b k u ts with hc | ⟨habs, hc⟩
  · rw [hc]
    simpa [ApplyOutcome.noDelta, FlatOp.introducedBy, FlatOp.introduces] using h.idle hseq
  · rw [hc]
    have hup : KvStore.on .Upload
        [(WriteOp.put .Upload (uploadKey b k u 0) (.Session ⟨u, ts⟩) : StoreOp)]
        = [(uploadKey b k u 0, some (.Session ⟨u, ts⟩))] := rfl
    refine h.session b k ts [] 0 0 hseq (by simp) ?_ rfl ?_ ?_ rfl
    · intro c hc _
      cases c <;> first | rfl | exact absurd rfl hc
    · have hat : refsAt .Upload s.store (uploadKey b k u 0) = 0 := by simp [refsAt, habs]
      have hU : held .Upload (s.store.applyBatch _) + refsAt .Upload s.store (uploadKey b k u 0)
          = held .Upload s.store + _ := held_put hup
      rwa [hat] at hU
    · refine h.noPartZero.writes fun key v hmem _ => ?_
      simp only [ApplyOutcome.noDelta, hup, List.mem_singleton, Prod.mk.injEq,
        Option.some.injEq] at hmem
      rw [hmem.2]
      rfl

lemma LedgerInv.putPart (h : LedgerInv s) {p : UInt32} {part : PartMeta}
    (hg : LedgerGuard s (.PutPart b k u p part ts, seq)) :
    LedgerInv (FlatLedger.step blake3 s (.PutPart b k u p part ts, seq)) := by
  obtain ⟨hseq, hcard, hp⟩ := hg
  rw [FlatLedger.step_of_ok (applyPutPart s.store b k u p part seq ts) rfl]
  rcases applyPutPart_cases s.store b k u p part seq ts with hc | ⟨-, hresp, hon⟩
  · rw [hc]
    simpa [ApplyOutcome.noDelta, FlatOp.introducedBy] using h.idle hseq
  · rw [hresp]
    have hover : (overwrittenPart s.store b k u p : Multiset Slice)
        = refsAt .Upload s.store (uploadKey b k u p) := by
      unfold overwrittenPart refsAt
      cases s.store.get .Upload (uploadKey b k u p) <;> rfl
    have hlen : (chunks SEGMENT_SLICES (overwrittenPart s.store b k u p)).length ≤ 2 ^ 32 := by
      have h1 := length_chunks_le (by decide : 0 < SEGMENT_SLICES)
        (overwrittenPart s.store b k u p)
      have h2 := Multiset.card_le_card (refsAt_le_held s.store .Upload (uploadKey b k u p))
      rw [← hover, Multiset.coe_card] at h2
      rw [card_live] at hcard
      omega
    have hup : KvStore.on .Upload (applyPutPart s.store b k u p part seq ts).ops
        = [(uploadKey b k u p, some (.Part part))] := hon .Upload
    refine h.session b k ts _ (refsAt .Upload s.store (uploadKey b k u p))
      (references .Upload (.Part part) : Multiset Slice) hseq hlen ?_ (hon _) (held_put hup) ?_ ?_
    · intro c h1 h2
      rw [hon, if_neg h1, if_neg h2]
    · refine h.noPartZero.writes fun key v hmem hzero => ?_
      rw [hup, List.mem_singleton, Prod.mk.injEq] at hmem
      rw [hmem.1, partNoOf_uploadKey, Option.some.injEq] at hzero
      exact absurd hzero hp
    · rw [flatten_chunks (by decide), hover]
      rfl

/-- The entries of a session walk, for the balance lemmas. -/
lemma scanSession_zero (hzero : NoPartZero s.store) (b : BucketId) (k : Bytes) (u : BitVec 128) :
    (∀ e ∈ scanSession s.store b k u, partNoOf e.1 = some 0 → references .Upload e.2 = [])
      ∧ ∀ e ∈ scanSession s.store b k u, partNoOf e.1 ≠ none := by
  refine ⟨fun e he => hzero e.1 e.2 (mem_scanSession.mp he).1, fun e he => ?_⟩
  refine partNoOf_ne_none ?_
  have hlen := (mem_scanSession.mp he).2.length_le
  have hpre : 4 ≤ (uploadPrefix b k u).length := by simp [uploadPrefix, flatKey]; omega
  omega

lemma LedgerInv.abort (h : LedgerInv s) (hg : LedgerGuard s (.AbortMultipart b k u ts, seq)) :
    LedgerInv (FlatLedger.step blake3 s (.AbortMultipart b k u ts, seq)) := by
  obtain ⟨hseq, hcard, -⟩ := hg
  rw [FlatLedger.step_of_ok (applyAbort s.store b k u seq ts) rfl]
  have hresp : (applyAbort s.store b k u seq ts).response = .None := by
    unfold applyAbort
    cases s.store.get .Upload (uploadKey b k u 0) <;> rfl
  rw [hresp]
  by_cases hsess : s.store.get .Upload (uploadKey b k u 0) = none
  · have hops : (applyAbort s.store b k u seq ts).ops = [] := by
      simp [applyAbort, hsess, ApplyOutcome.noDelta]
    rw [hops]
    simpa [FlatOp.introducedBy, FlatOp.introduces] using h.idle hseq
  · have hon : ∀ c, KvStore.on c (applyAbort s.store b k u seq ts).ops
        = if c = .Upload then (scanSession s.store b k u).map fun e => (e.1, none)
          else if c = .Delq then
            (delqEntries (delqKey b k seq) ts 0
              (abandonedChunks (fun p => p ∉ []) (scanSession s.store b k u))).map
                fun e => (e.1, some e.2)
          else [] := fun c => by
      rw [on_applyAbort, if_neg hsess]
      simp
    have hup : KvStore.on .Upload (applyAbort s.store b k u seq ts).ops
        = (scanSession s.store b k u).map fun e => (e.1, none) := hon .Upload
    obtain ⟨hz, hsome⟩ := scanSession_zero h.noPartZero b k u
    have habs := entriesRefs_eq_abandoned_add [] hz hsome
    have hnone : (scanSession s.store b k u).filter (isListed []) = [] := by
      rw [List.filter_eq_nil_iff]
      intro e _
      unfold isListed
      cases partNoOf e.1 <;> simp
    rw [hnone, entriesRefs_nil, add_zero] at habs
    refine h.session b k ts _ (entriesRefs .Upload (scanSession s.store b k u)) 0 hseq ?_ ?_
      (hon .Delq) ?_ ?_ ?_
    · have := length_abandonedChunks_scanSession_le (fun p => p ∉ ([] : List UInt32)) s.store b k u
      rw [card_live] at hcard
      omega
    · intro c h1 h2
      rw [hon, if_neg h1, if_neg h2]
    · rw [add_zero]
      exact held_walk (by decide) (by decide) hup
    · refine h.noPartZero.writes fun key v hmem => ?_
      rw [hup] at hmem
      simp at hmem
    · rw [flatten_abandonedChunks, habs]
      rfl

lemma LedgerInv.complete (h : LedgerInv s) {refs : List PartRef}
    (hg : LedgerGuard s (.CompleteMultipart b k u refs ts, seq)) :
    LedgerInv (FlatLedger.step blake3 s (.CompleteMultipart b k u refs ts, seq)) := by
  obtain ⟨hseq, hcard, hnd, hown⟩ := hg
  rw [card_live] at hcard
  cases ha : applyComplete blake3 s.store b k u refs seq ts with
  | error e =>
    have hstep : FlatLedger.step blake3 s (.CompleteMultipart b k u refs ts, seq)
        = { s with nextSeq := seq.toNat + 1 } := by simp [FlatLedger.step, Flat.apply, ha]
    rw [hstep]
    exact h.idle hseq
  | ok out =>
    have hok : Flat.apply blake3 s.store (.CompleteMultipart b k u refs ts) seq = .ok out := ha
    rw [FlatLedger.step_of_ok out hok]
    rcases applyComplete_cases ha with ⟨reason, rfl⟩ | ⟨found, size, hall, -, -, ⟨hresp, -⟩, hops⟩
    · simpa [ApplyOutcome.noDelta, FlatOp.introducedBy] using h.idle hseq
    · obtain ⟨hz, hsome⟩ := scanSession_zero h.noPartZero b k u
      -- what the session held is what was abandoned and what was listed
      have hsplit := entriesRefs_eq_abandoned_add (refs.map PartRef.partNo) hz hsome
      rw [entriesRefs_listed hall hnd hown] at hsplit
      have hwalk := Multiset.card_le_card (entriesRefs_walk_le_held s.store
        (by decide : MetaCf.Upload ≠ .Applied) b k (be128 u) (by decide : 0 < 4096))
      have hfound : (found.flatMap PartMeta.slices).length < 2 ^ 32 := by
        have h4 : entriesRefs .Upload (scanSession s.store b k u) = entriesRefs .Upload
          (scanPrefix s.store .Upload (flatKey .Upload b k (be128 u)) 4096) := rfl
        rw [← h4, hsplit, Multiset.card_add, Multiset.coe_card, Multiset.coe_card] at hwalk
        omega
      have hlen : (found.flatMap PartMeta.slices).length ≤ maxSlices :=
        le_trans hfound.le (by decide)
      rw [hresp]
      refine h.replace (replaces_complete hops) (entriesRefs .Upload (scanSession s.store b k u)) hseq
        (pack_segments_length hlen) ?_ ?_ ?_
      · have h1 := length_chunks_capturedOld_le s.store b k
        have h2 := length_abandonedChunks_scanSession_le (fun p => p ∉ refs.map PartRef.partNo) s.store b k u
        rw [List.length_append]
        omega
      · exact held_walk (by decide) (by decide : 0 < 4096) (by rw [hops, on_complete, if_pos rfl]; rfl)
      · rw [flatten_abandonedChunks, hsplit]
        simp [slicesOf, completedHead, ContentHead.intoSlices, FlatOp.introducedBy,
          FlatOp.introduces]

/-- **One guarded step conserves references.** -/
theorem LedgerInv.step (h : LedgerInv s) {a : FlatOp × UInt64} (hg : LedgerGuard s a) :
    LedgerInv (FlatLedger.step blake3 s a) := by
  obtain ⟨op, seq⟩ := a
  cases op with
  | Put b k head ts => exact h.put hg
  | Delete b k ts => exact h.delete hg
  | CreateMultipart b k u ts => exact h.create hg
  | PutPart b k u p part ts => exact h.putPart hg
  | CompleteMultipart b k u refs ts => exact h.complete hg
  | AbortMultipart b k u ts => exact h.abort hg

/-- Rejected ops introduce less than their list says, never more. -/
lemma introduced_run_le (blake3 : Bytes → BitVec 256) (s : FlatLedger) (ops : List (FlatOp × UInt64)) :
    (run (FlatLedger.step blake3) s ops).introduced
      ≤ s.introduced + ((ops.flatMap fun a => a.1.introduces : List Slice) : Multiset Slice) := by
  induction ops generalizing s with
  | nil => simp
  | cons a ops ih =>
    refine le_trans (ih _) ?_
    have hone : (FlatLedger.step blake3 s a).introduced
        ≤ s.introduced + (a.1.introduces : Multiset Slice) := by
      unfold FlatLedger.step
      cases Flat.apply blake3 s.store a.1 a.2 with
      | error e => exact Multiset.le_add_right _ _
      | ok out =>
        refine add_le_add le_rfl ?_
        cases hr : out.response <;> simp [FlatOp.introducedBy]
    rw [List.flatMap_cons, ← Multiset.coe_add, ← add_assoc]
    exact add_le_add hone le_rfl

end LedgerStep

/-- **Flat reference conservation.**  After every run whose steps meet the guard, the store
references exactly what its accepted ops introduced; if all slices handed to the run are distinct,
each introduced slice is referenced exactly once. -/
theorem flat_refs_conserved (blake3 : Bytes → BitVec 256) (ops : List (FlatOp × UInt64))
    (hnd : (ops.flatMap fun a => a.1.introduces).Nodup)
    (h : Along (FlatLedger.step blake3) LedgerGuard FlatLedger.init ops) :
    refs (run (FlatLedger.step blake3) FlatLedger.init ops).store
        = (run (FlatLedger.step blake3) FlatLedger.init ops).introduced
      ∧ ∀ x ∈ (run (FlatLedger.step blake3) FlatLedger.init ops).introduced,
        (refs (run (FlatLedger.step blake3) FlatLedger.init ops).store).count x = 1 := by
  have hinv : LedgerInv (run (FlatLedger.step blake3) FlatLedger.init ops) :=
    h.invariant (fun _ _ hs hg => hs.step hg) LedgerInv.init
  refine ⟨hinv.conserved, fun x hx => ?_⟩
  have hle := introduced_run_le blake3 FlatLedger.init ops
  have hnodup : (run (FlatLedger.step blake3) FlatLedger.init ops).introduced.Nodup :=
    Multiset.nodup_of_le hle (by simpa [FlatLedger.init] using hnd)
  rw [hinv.conserved]
  exact Multiset.count_eq_one_of_mem hnodup hx

/-- An upload on key `a` with two parts, completed with the first alone and then overwritten. -/
theorem flat_refs_conserved_demo :
    let part := fun i : UInt32 => (⟨1, 0, [⟨i, [], 0⟩]⟩ : PartMeta)
    let ops : List (FlatOp × UInt64) :=
      [(.CreateMultipart 1 [0x61] 7 0, 0), (.PutPart 1 [0x61] 7 1 (part 1) 0, 1),
        (.PutPart 1 [0x61] 7 2 (part 2) 0, 2), (.CompleteMultipart 1 [0x61] 7 [⟨1, 0⟩] 0, 3),
        (.Delete 1 [0x61] 0, 4)]
    Along (FlatLedger.step fun _ => 0) LedgerGuard FlatLedger.init ops
      ∧ ∀ x ∈ (run (FlatLedger.step fun _ => 0) FlatLedger.init ops).introduced,
        (refs (run (FlatLedger.step fun _ => 0) FlatLedger.init ops).store).count x = 1 :=
  ⟨by decide +kernel, (flat_refs_conserved _ _ (by decide +kernel) (by decide +kernel)).2⟩

/-- Part zero overwrites the session record, and aborting the session drops it uncaptured: its
slice was introduced by an accepted op and is referenced nowhere. -/
theorem refs_lost_partZero :
    let x : Slice := ⟨1, [], 0⟩
    let s := run (FlatLedger.step fun _ => 0) FlatLedger.init
      [(.CreateMultipart 1 [0x61] 7 0, 0), (.PutPart 1 [0x61] 7 0 ⟨1, 0, [x]⟩ 0, 1),
        (.AbortMultipart 1 [0x61] 7 0, 2)]
    x ∈ s.introduced ∧ (refs s.store).count x = 0 := by
  decide +kernel

end Epoch
