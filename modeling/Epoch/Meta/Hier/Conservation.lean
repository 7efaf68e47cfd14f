import Epoch.Meta.Enqueue
import Epoch.Meta.Hier.Refinement

/-!
# Hierarchical reference conservation

In every state the slices that accepted Writes have introduced are exactly those that file records,
segments and pending deletes reference.  A Write and an Unlink balance as in the flat namespace
(`replace_balance`): what they delete they also enqueue, wherever the walk strays.  A rename
balances for the head record it moves, but the segments under its source are deleted without being
captured, so they are lost unless the capture at the target has found them too.  That is the
condition `HierLedgerGuard` puts on renames, and `refs_lost_rename` shows what happens without it.
-/

namespace Epoch

/-- The slices an op brings into the namespace. -/
def HierOp.introduces : HierOp → List Slice
  | Write _ _ _ _ _ content _ _ => content.intoSlices
  | _ => []

/-- What an op with this response has introduced: nothing if it was rejected. -/
def HierOp.introducedBy (op : HierOp) : MetaResponse → List Slice
  | .Rejected _ => []
  | _ => op.introduces

/-- What file records, segments and pending deletes reference. -/
def hierRefs (store : MetaStore) : Multiset Slice :=
  held .Fs store + held .MetaSeg store + held .Delq store

/-- A store with its allocator, the slices its accepted ops have introduced, and a bound on the
sequence numbers used so far. -/
structure HierLedger where
  store : MetaStore
  ino : InoAllocator
  introduced : Multiset Slice
  nextSeq : ℕ

namespace HierLedger

def init (store : MetaStore) (ino : InoAllocator) : HierLedger := ⟨store, ino, 0, 0⟩

def step (s : HierLedger) (a : HierOp × UInt64) : HierLedger :=
  match Hier.apply s.store a.1 a.2 s.ino with
  | .error _ => { s with nextSeq := a.2.toNat + 1 }
  | .ok (out, ino') =>
    ⟨s.store.applyBatch out.ops, ino',
      s.introduced + (a.1.introducedBy out.response : Multiset Slice), a.2.toNat + 1⟩

end HierLedger

/-- The condition on a step.  Sequence numbers increase and no event enqueues 2³² entries; a
rename's source has no segments but those the capture at its target finds; a file that was renamed
to the empty name is not removed as its directory's sentinel. -/
def HierLedgerGuard (s : HierLedger) (a : HierOp × UInt64) : Prop :=
  s.nextSeq ≤ a.2.toNat ∧ (held .Fs s.store + held .MetaSeg s.store).card < 2 ^ 32
    ∧ match a.1 with
      | .Write _ _ _ _ _ content _ _ => content.intoSlices.length ≤ maxSlices
      | .RenameSameDir b i source target _ => source ≠ target →
          ∀ e ∈ Hier.oldSegments s.store b i source, e ∈ Hier.captureSegs s.store b i target
      | .RmdirSentinel b i _ => (Hier.fileAt s.store b i Hier.SENTINEL_NAME).isNone
      | _ => True

instance (s : HierLedger) : (a : HierOp × UInt64) → Decidable (HierLedgerGuard s a)
  | (.Write .., _) | (.Unlink .., _) | (.MkdirSentinel .., _) | (.MkdirLink .., _)
  | (.RmdirUnlink .., _) | (.RmdirSentinel .., _) | (.RenameSameDir .., _) =>
    inferInstanceAs (Decidable (_ ∧ _ ∧ _))

namespace Hier

variable {store : MetaStore} {ops bump : List StoreOp} {b : BucketId} {i : UInt64} {n : Bytes}
  {seq : UInt64} {delta ts : Int64}

/-! ## File records -/

/-- Only files hold references in `fs`. -/
lemma refsOf_fs (o : Option MetaValue) :
    refsOf .Fs o = (fileOf o).elim 0 fun f => (f.content.intoSlices : Multiset Slice) := by
  cases o with
  | none => rfl
  | some v =>
    cases v with
    | Fs r => cases r <;> rfl
    | _ => rfl

/-- The share of writes followed by a bump: the bump adds nothing. -/
lemma held_fs_bump (ws : List (Bytes × Option MetaValue)) (hb : IsBump store b i delta ts bump)
    (h : KvStore.on .Fs ops = ws ++ KvStore.on .Fs bump) (hnd : (ws.map Prod.fst).Nodup)
    (hws : bump ≠ [] → fsKey b i SENTINEL_NAME ∉ ws.map Prod.fst) :
    held .Fs (store.applyBatch ops) + (ws.map fun w => refsAt .Fs store w.1).sum
      = held .Fs store + (ws.map fun w => refsOf .Fs w.2).sum := by
  rcases hb.cases with rfl | ⟨d, hd, rfl⟩
  · rw [KvStore.on_nil, List.append_nil] at h
    exact held_writes store h hnd
  · have hon : KvStore.on .Fs ops
        = ws ++ [(fsKey b i SENTINEL_NAME, some (.Fs (.Sentinel (bumped d delta ts))))] := by
      rw [h]
      rfl
    have hnd' : ((ws ++ [(fsKey b i SENTINEL_NAME,
        some (MetaValue.Fs (.Sentinel (bumped d delta ts))))]).map Prod.fst).Nodup := by
      rw [List.map_append, List.map_singleton, ← List.concat_eq_append, List.nodup_concat]
      exact ⟨hws (by simp), hnd⟩
    have hat : refsAt .Fs store (fsKey b i SENTINEL_NAME) = 0 := by
      rw [refsAt, hd, refsOf_fs]
      rfl
    simpa [hat, refsOf_fs, fileOf, MetaValue.fs?, FsRecord.file?] using held_writes store hon hnd'

lemma IsQuiet.held_fs (hq : IsQuiet store ops) :
    held .Fs (store.applyBatch ops) = held .Fs store := by
  cases hq with
  | nothing hops => rw [hops]; rfl
  | single key o hops hrec hnew hold =>
    have hon : KvStore.on .Fs ops = [(key, o)] := by rw [hops]; rfl
    simpa [refsAt, refsOf_fs, hold, hnew] using held_writes store hon (by simp)
  | @write b i delta ts bump key o hb hops hrec hnew hold hkey =>
    have hon : KvStore.on .Fs ops = [(key, o)] ++ KvStore.on .Fs bump := by rw [hops]; rfl
    have h := held_fs_bump [(key, o)] hb hon (by simp) fun hne => by
      simpa using (hkey hne).symm
    simpa [refsAt, refsOf_fs, hold, hnew] using h

/-! ## Captures -/

/-- Every stored segment belongs to a stored file. -/
def Owned (store : MetaStore) : Prop :=
  ∀ b i n j, (store .MetaSeg).get (segmentKey b (hierRoutingKey i n) j) ≠ none →
    (fileAt store b i n).isSome

lemma Owned.segsAre_nil (h : Owned store) (hold : store.get .Fs (fsKey b i n) = none) :
    SegsAre (store .MetaSeg) b (hierRoutingKey i n) [] := by
  intro j
  by_contra hne
  have := h b i n j (by simpa using hne)
  simp [fileAt, hold, fileOf] at this

/-- Every stored file embeds at most 64 slices. -/
def Embedded (store : MetaStore) : Prop :=
  ∀ b i n f, fileAt store b i n = some f → f.content.intoSlices.length ≤ HEAD_EMBEDDED_SLICES

lemma packFile_embedded (f : FileRecord) :
    (packFile f).1.content.intoSlices.length ≤ HEAD_EMBEDDED_SLICES := by
  unfold packFile
  cases f.content with
  | Inline bytes => simp [ContentHead.intoSlices]
  | Slices slices => exact length_splitSlices_embedded slices

lemma packFile_refs (f : FileRecord) :
    (((packFile f).1.content.intoSlices : List Slice) : Multiset Slice) + segsRefs (packFile f).2
      = (f.content.intoSlices : Multiset Slice) := by
  cases hc : f.content with
  | Inline bytes => simp [packFile, hc, ContentHead.intoSlices, segsRefs]
  | Slices slices =>
    simp only [packFile, hc, ContentHead.intoSlices, segsRefs]
    rw [Multiset.coe_add, splitSlices_slices]

variable {f : FileRecord} {source target : Bytes}

/-- A record that embeds all its slices is packed into its head alone. -/
lemma packFile_of_embedded (h : f.content.intoSlices.length ≤ HEAD_EMBEDDED_SLICES) :
    (packFile f).1.content = f.content ∧ (packFile f).2 = [] := by
  cases hc : f.content with
  | Inline bytes => simp [packFile, hc]
  | Slices slices =>
    have hsplit : splitSlices slices = (slices, []) := splitSlices_of_le (by rwa [hc] at h)
    simp [packFile, hc, hsplit]

/-- The slices of an optional file. -/
def slicesOf (o : Option FileRecord) : List Slice := o.elim [] fun f => f.content.intoSlices

/-- **Replacing a file balances.** -/
lemma capture_balance (howned : Owned store) {o : Option FileRecord}
    (hr : Replaces store b i n o seq delta ts ops)
    (hlen : (o.elim [] fun f => (packFile f).2).length < 2 ^ 32) :
    held .Fs (store.applyBatch ops) + held .MetaSeg (store.applyBatch ops)
        + (capturedOld store b i n : Multiset Slice)
      = held .Fs store + held .MetaSeg store + (slicesOf o : Multiset Slice) := by
  have hhead : held .Fs (store.applyBatch ops) + refsAt .Fs store (fsKey b i n)
      = held .Fs store + refsOf .Fs (o.map fun f => .Fs (.File (packFile f).1)) := by
    simpa using held_fs_bump [_] rfl hr.fs (by simp) fun hne => hr.sentinel_notMem hne _
  have hnew : refsOf .Fs (o.map fun f => .Fs (.File (packFile f).1))
      + segsRefs (o.elim [] fun f => (packFile f).2) = (slicesOf o : Multiset Slice) := by
    cases o with
    | none => rfl
    | some f => exact packFile_refs f
  have hseg := hr.segs
  rw [captureSegs_eq] at hseg
  rw [capturedOld_refs, replace_balance hlen howned.segsAre_nil hhead
    (by rw [KvStore.applyBatch_cf, hseg]), hnew]

/-- What the move of a record without segments does to the segments. -/
lemma Moves.writeAll_eq (hm : Moves store b i source target f seq delta ts ops)
    (hemb : f.content.intoSlices.length ≤ HEAD_EMBEDDED_SLICES) :
    store.applyBatch ops .MetaSeg
      = ((store .MetaSeg).writeAll ((captureSegs store b i target).map fun e => (e.1, none))).writeAll
          (segDeletes store b (hierRoutingKey i source)) := by
  rw [KvStore.applyBatch_cf, hm.segs, (packFile_of_embedded (f := { f with mtime := ts }) hemb).2,
    segWrites_nil, List.append_nil, OrdMap.writeAll_append]

/-- **Renaming balances** if the capture at the target finds all segments under the source. -/
lemma rename_balance (howned : Owned store) (hm : Moves store b i source target f seq delta ts ops)
    (hemb : f.content.intoSlices.length ≤ HEAD_EMBEDDED_SLICES)
    (hseg : store.applyBatch ops .MetaSeg = (store .MetaSeg).writeAll
      ((captureSegs store b i target).map fun e => (e.1, none))) :
    held .Fs (store.applyBatch ops) + held .MetaSeg (store.applyBatch ops)
        + (capturedOld store b i target : Multiset Slice)
      = held .Fs store + held .MetaSeg store := by
  have hhead : held .Fs (store.applyBatch ops) + refsAt .Fs store (fsKey b i target)
      = held .Fs store + 0 := by
    have h := held_fs_bump [_, _] rfl hm.fs (by simpa using Ne.symm hm.ne)
      fun hne => hm.sentinel_notMem hne _ _
    -- the target gains what the source gives up
    have hsame : refsAt .Fs store (fsKey b i source)
        = refsOf .Fs (some (.Fs (.File (packFile { f with mtime := ts }).1))) := by
      rw [refsAt, hm.moved, refsOf_fs, refsOf_fs]
      simp only [fileOf, Option.bind_some, MetaValue.fs?, FsRecord.file?, Option.elim_some]
      rw [(packFile_of_embedded (f := { f with mtime := ts }) hemb).1]
    simp only [List.map_cons, List.map_nil, List.sum_cons, List.sum_nil, add_zero, refsOf_none,
      hsame] at h
    rw [← add_assoc] at h
    rw [add_zero]
    exact add_right_cancel h
  rw [captureSegs_eq] at hseg
  have hseg' : store.applyBatch ops .MetaSeg = (store .MetaSeg).writeAll
      ((if store.get .Fs (fsKey b i target) = none then []
        else segDeletes store b (hierRoutingKey i target))
        ++ segWrites b (hierRoutingKey i target) []) := by
    rw [hseg, segWrites_nil, List.append_nil]
  rw [capturedOld_refs, replace_balance (by simp) howned.segsAre_nil hhead hseg']
  simp [segsRefs]

/-! ## What the steps keep -/

lemma Owned.replace (h : Owned store) {o : Option FileRecord}
    (hr : Replaces store b i n o seq delta ts ops) : Owned (store.applyBatch ops) := by
  intro b' i' n' j hne
  rw [hr.fileAt_eq]
  rw [KvStore.applyBatch_cf, hr.segs, captureSegs_eq, OrdMap.writeAll_append] at hne
  by_cases hbk : (b', i', n') = (b, i, n)
  · obtain ⟨rfl, rfl, rfl⟩ : b' = b ∧ i' = i ∧ n' = n := by simpa using hbk
    rw [if_pos rfl]
    cases o with
    | some f => rfl
    | none =>
      -- a removed file keeps no segment
      simp only [Option.elim_none, segWrites, List.zipIdx_nil, List.map_nil,
        OrdMap.writeAll_nil] at hne
      split_ifs at hne with hnone
      · exact absurd (h.segsAre_nil hnone j) (by simpa using hne)
      · exact absurd (segsAre_nil_of_walk j) (by simpa using hne)
  · rw [if_neg hbk]
    refine h b' i' n' j ?_
    rw [get_segWrites_other _ j (routing_ne hbk)] at hne
    split_ifs at hne with hnone
    · exact hne
    · rw [writeAll_segDeletes, OrdMap.get_filter] at hne
      intro hnone'
      rw [hnone'] at hne
      exact hne rfl

lemma Owned.rename (h : Owned store) (hm : Moves store b i source target f seq delta ts ops)
    (hemb : f.content.intoSlices.length ≤ HEAD_EMBEDDED_SLICES) : Owned (store.applyBatch ops) := by
  -- the batch only deletes segments
  have hsub : ∀ key, (store .MetaSeg).get key = none →
      ((store .MetaSeg).writeAll ((captureSegs store b i target).map fun e => (e.1, none))).get key
        = none := by
    intro key hkey
    refine Option.eq_none_iff_forall_not_mem.mpr fun v hv => ?_
    rcases OrdMap.get_writeAll_eq_some hv with hmem | hget
    · simp at hmem
    · rw [hkey] at hget
      cases hget
  intro b' i' n' j hne
  rw [hm.fileAt_eq]
  rw [hm.writeAll_eq hemb] at hne
  by_cases hs : (b', i', n') = (b, i, source)
  · obtain ⟨rfl, rfl, rfl⟩ : b' = b ∧ i' = i ∧ n' = source := by simpa using hs
    exact absurd (segsAre_nil_of_walk_after (fun j => hsub _) j) (by simpa using hne)
  · rw [if_neg hs]
    split_ifs with ht
    · rfl
    · refine h b' i' n' j fun hnone => hne ?_
      refine Option.eq_none_iff_forall_not_mem.mpr fun v hv => ?_
      rcases OrdMap.get_writeAll_eq_some hv with hmem | hget
      · simp at hmem
      · rw [hsub _ hnone] at hget
        cases hget

lemma Embedded.replace (h : Embedded store) {o : Option FileRecord}
    (hr : Replaces store b i n o seq delta ts ops) : Embedded (store.applyBatch ops) := by
  intro b' i' n' f hf
  rw [hr.fileAt_eq] at hf
  split_ifs at hf
  · obtain ⟨g, -, rfl⟩ := Option.map_eq_some_iff.mp hf
    exact packFile_embedded g
  · exact h b' i' n' f hf

lemma Embedded.rename (h : Embedded store)
    (hm : Moves store b i source target f seq delta ts ops) : Embedded (store.applyBatch ops) := by
  intro b' i' n' g hg
  rw [hm.fileAt_eq] at hg
  split_ifs at hg
  · rw [← Option.some.inj hg]
    exact packFile_embedded _
  · exact h b' i' n' g hg

end Hier

/-! ## Steps conserve -/

/-- What every guarded run keeps. -/
structure HierLedgerInv (s : HierLedger) : Prop where
  conserved : hierRefs s.store = s.introduced
  below : DelqBelow s.store s.nextSeq
  owned : Hier.Owned s.store
  embedded : Hier.Embedded s.store

section HierLedgerStep

open Hier

variable {s : HierLedger} {seq i : UInt64} {b : BucketId} {op : HierOp} {n : Bytes} {ts : Int64}

lemma HierLedger.step_of_ok {out : ApplyOutcome} {ino' : InoAllocator}
    (h : Hier.apply s.store op seq s.ino = .ok (out, ino')) :
    s.step (op, seq)
      = ⟨s.store.applyBatch out.ops, ino',
          s.introduced + (op.introducedBy out.response : Multiset Slice), seq.toNat + 1⟩ := by
  simp [HierLedger.step, h]

/-- A step that commits nothing. -/
lemma HierLedgerInv.idle (h : HierLedgerInv s) (hseq : s.nextSeq ≤ seq.toNat) (ino' : InoAllocator) :
    HierLedgerInv ⟨s.store, ino', s.introduced, seq.toNat + 1⟩ :=
  ⟨h.conserved, h.below.mono (Nat.le_succ_of_le hseq), h.owned, h.embedded⟩

lemma HierLedgerInv.error (h : HierLedgerInv s) (hseq : s.nextSeq ≤ seq.toNat)
    {e : MetaStoreError} (ha : Hier.apply s.store op seq s.ino = .error e) :
    HierLedgerInv (s.step (op, seq)) := by
  have hstep : s.step (op, seq) = { s with nextSeq := seq.toNat + 1 } := by
    simp [HierLedger.step, ha]
  rw [hstep]
  exact h.idle hseq s.ino

/-- **The common balance of the file ops**: a file is captured and the file families change by what
is captured and `new`. -/
lemma HierLedgerInv.capture (h : HierLedgerInv s) {ops : List StoreOp} {b : BucketId} {i : UInt64}
    {n : Bytes} {new : Multiset Slice} (ts : Int64) (ino' : InoAllocator)
    (hseq : s.nextSeq ≤ seq.toNat)
    (hcard : (held .Fs s.store + held .MetaSeg s.store).card < 2 ^ 32)
    (hdelq : KvStore.on .Delq ops = (delqEntries (Epoch.delqKey b (hierRoutingKey i n) seq) ts 0
      (chunks SEGMENT_SLICES (capturedOld s.store b i n))).map fun e => (e.1, some e.2))
    (hbal : held .Fs (s.store.applyBatch ops) + held .MetaSeg (s.store.applyBatch ops)
        + (capturedOld s.store b i n : Multiset Slice)
      = held .Fs s.store + held .MetaSeg s.store + new)
    (howned : Owned (s.store.applyBatch ops)) (hemb : Embedded (s.store.applyBatch ops)) :
    HierLedgerInv ⟨s.store.applyBatch ops, ino', s.introduced + new, seq.toNat + 1⟩ where
  below := h.below.enqueue hseq hdelq
  owned := howned
  embedded := hemb
  conserved := by
    have hcount : (chunks SEGMENT_SLICES (capturedOld s.store b i n)).length ≤ 2 ^ 32 := by
      have hle := length_chunks_capturedOld_le s.store b i n
      rw [Multiset.card_add] at hcard
      omega
    have hD := held_enqueue (h.below.mono hseq) hcount hdelq
    rw [flatten_chunks (by decide)] at hD
    simp only
    rw [← h.conserved]
    unfold hierRefs
    calc held .Fs (s.store.applyBatch ops) + held .MetaSeg (s.store.applyBatch ops)
          + held .Delq (s.store.applyBatch ops)
        = held .Fs (s.store.applyBatch ops) + held .MetaSeg (s.store.applyBatch ops)
          + (capturedOld s.store b i n : Multiset Slice) + held .Delq s.store := by rw [hD]; abel
      _ = held .Fs s.store + held .MetaSeg s.store + held .Delq s.store + new := by
            rw [hbal]; abel

lemma HierLedgerInv.write (h : HierLedgerInv s) {size : UInt64} {etag : BitVec 128}
    {content : ContentHead} {http : HttpMeta}
    (hg : HierLedgerGuard s (.Write b i n size etag content http ts, seq)) :
    HierLedgerInv (s.step (.Write b i n size etag content http ts, seq)) := by
  obtain ⟨hseq, hcard, hlen⟩ := hg
  cases ha : Hier.apply s.store (.Write b i n size etag content http ts) seq s.ino with
  | error e => exact h.error hseq ha
  | ok r =>
    obtain ⟨out, ino'⟩ := r
    rw [HierLedger.step_of_ok ha]
    rcases applyWrite_cases ha with
      ⟨reason, rfl, -⟩ | ⟨fileIno, delta, bump, -, hino, hb, ⟨hresp, -⟩, hops⟩
    · simpa [rejected, ApplyOutcome.noDelta, HierOp.introducedBy] using h.idle hseq ino'
    · have hr := replaces_write seq
        (hino.symm.imp And.left (Exists.imp fun _ => And.left)) hb hops
      rw [hresp]
      exact h.capture ts ino' hseq hcard hr.delq
        (capture_balance h.owned hr (packFile_segments_length hlen)) (h.owned.replace hr)
        (h.embedded.replace hr)

lemma HierLedgerInv.unlink (h : HierLedgerInv s) (hg : HierLedgerGuard s (.Unlink b i n ts, seq)) :
    HierLedgerInv (s.step (.Unlink b i n ts, seq)) := by
  obtain ⟨hseq, hcard, -⟩ := hg
  cases ha : Hier.apply s.store (.Unlink b i n ts) seq s.ino with
  | error e => exact h.error hseq ha
  | ok r =>
    obtain ⟨out, ino'⟩ := r
    rw [HierLedger.step_of_ok ha]
    obtain ⟨ho, rfl⟩ := ok_of_map ha
    rcases applyUnlink_cases ho with ⟨reason, rfl⟩ | ⟨-, rfl⟩ | ⟨f, bump, hf, hb, ⟨hresp, -⟩, hops⟩
    · simpa [rejected, ApplyOutcome.noDelta, HierOp.introducedBy] using h.idle hseq s.ino
    · simpa [ApplyOutcome.noDelta, HierOp.introducedBy, HierOp.introduces] using h.idle hseq s.ino
    · have hr := replaces_unlink seq hf hb hops
      rw [hresp]
      exact h.capture ts s.ino hseq hcard hr.delq (capture_balance h.owned hr (by simp))
        (h.owned.replace hr) (h.embedded.replace hr)

lemma HierLedgerInv.renameSameDir (h : HierLedgerInv s) {source target : Bytes}
    (hg : HierLedgerGuard s (.RenameSameDir b i source target ts, seq)) :
    HierLedgerInv (s.step (.RenameSameDir b i source target ts, seq)) := by
  obtain ⟨hseq, hcard, hsub⟩ := hg
  cases ha : Hier.apply s.store (.RenameSameDir b i source target ts) seq s.ino with
  | error e => exact h.error hseq ha
  | ok r =>
    obtain ⟨out, ino'⟩ := r
    rw [HierLedger.step_of_ok ha]
    obtain ⟨ho, rfl⟩ := ok_of_map ha
    rcases applyRenameSameDir_cases ho with
      ⟨reason, rfl⟩ | ⟨-, rfl⟩ | ⟨f, delta, bump, hst, hf, hold, -, hb, ⟨hresp, -⟩, hops⟩
    · simpa [rejected, ApplyOutcome.noDelta, HierOp.introducedBy] using h.idle hseq s.ino
    · simpa [ApplyOutcome.noDelta, HierOp.introducedBy, HierOp.introduces] using h.idle hseq s.ino
    · have hemb := h.embedded b i source f (fileAt_eq_some.mpr hf)
      have hm := moves_rename seq hst hf hold hb hops
      -- the walk under the source finds nothing the capture has not deleted
      have hseg : s.store.applyBatch out.ops .MetaSeg = (s.store .MetaSeg).writeAll
          ((captureSegs s.store b i target).map fun e => (e.1, none)) := by
        rw [hm.writeAll_eq hemb, segDeletes, ← oldSegments_eq]
        have hkeys : (oldSegments s.store b i source).map Prod.fst
            ⊆ (captureSegs s.store b i target).map Prod.fst :=
          List.map_subset _ (hsub hst)
        simpa [List.map_map, Function.comp_def] using
          OrdMap.writeAll_deletes_of_subset (s.store .MetaSeg) hkeys
      rw [hresp]
      refine h.capture ts s.ino hseq hcard hm.delq ?_ (h.owned.rename hm hemb) (h.embedded.rename hm)
      rw [rename_balance h.owned hm hemb hseg]
      simp [HierOp.introducedBy, HierOp.introduces]

lemma HierLedgerInv.directory (h : HierLedgerInv s) (hdir : op.isDirectory = true)
    (hg : HierLedgerGuard s (op, seq)) :
    HierLedgerInv (s.step (op, seq)) := by
  have hseq := hg.1
  cases ha : Hier.apply s.store op seq s.ino with
  | error e => exact h.error hseq ha
  | ok r =>
    obtain ⟨out, ino'⟩ := r
    have hq : IsQuiet s.store out.ops := by
      refine apply_isQuiet hdir ?_ ha
      rintro b i ts rfl
      simpa using hg.2.2
    have hnone : op.introducedBy out.response = [] := by
      cases out.response <;> cases op <;> first | rfl | cases hdir
    rw [HierLedger.step_of_ok ha, hnone]
    refine ⟨?_, h.below.frame (Nat.le_succ_of_le hseq) (hq.on_eq_nil (by decide)), ?_, ?_⟩
    · simp only [hierRefs, Multiset.coe_nil, add_zero]
      rw [hq.held_fs, held_frame (hq.on_eq_nil (by decide)),
        held_frame (hq.on_eq_nil (by decide))]
      exact h.conserved
    · intro b i n j hne
      simp only at hne ⊢
      rw [hq.fileAt_eq]
      rw [KvStore.applyBatch_of_on_eq_nil (hq.on_eq_nil (by decide))] at hne
      exact h.owned b i n j hne
    · intro b i n f hf
      rw [hq.fileAt_eq] at hf
      exact h.embedded b i n f hf

/-- **One guarded step conserves references.** -/
theorem HierLedgerInv.step (h : HierLedgerInv s) {a : HierOp × UInt64} (hg : HierLedgerGuard s a) :
    HierLedgerInv (s.step a) := by
  obtain ⟨op, seq⟩ := a
  cases op with
  | Write b i n size etag content http ts => exact h.write hg
  | Unlink b i n ts => exact h.unlink hg
  | RenameSameDir b i source target ts => exact h.renameSameDir hg
  | MkdirSentinel b i n ts => exact h.directory rfl hg
  | MkdirLink b i n child ts => exact h.directory rfl hg
  | RmdirUnlink b i n ts => exact h.directory rfl hg
  | RmdirSentinel b i ts => exact h.directory rfl hg

lemma Seeded.ledgerInv {store : MetaStore} (h : Seeded store) (ino : InoAllocator) :
    HierLedgerInv (HierLedger.init store ino) where
  conserved := by
    have hfs : held .Fs store = 0 := by
      rw [held, OrdMap.total]
      refine List.sum_eq_zero fun x hx => ?_
      obtain ⟨e, he, rfl⟩ := List.mem_map.mp hx
      obtain ⟨d, hd⟩ := h.1 e he
      rw [hd]
      rfl
    have hempty : ∀ c, c ≠ .Fs → held c store = 0 := fun c hc => by rw [held, h.2 c hc]; rfl
    simp [HierLedger.init, hierRefs, hfs, hempty .MetaSeg (by decide), hempty .Delq (by decide)]
  below key v hget := by
    simp only [HierLedger.init, MetaStore.get] at hget
    rw [h.2 .Delq (by decide)] at hget
    cases hget
  owned b i n j hne := by
    simp only [HierLedger.init] at hne
    rw [h.2 .MetaSeg (by decide)] at hne
    exact absurd rfl hne
  embedded b i n f hf := by
    have hnone : fileAt store b i n = none := (h.stored ino).heads b i n
    simp only [HierLedger.init] at hf
    rw [hnone] at hf
    cases hf

/-- Rejected ops introduce less than their list says, never more. -/
lemma hier_introduced_run_le (s : HierLedger) (ops : List (HierOp × UInt64)) :
    (run HierLedger.step s ops).introduced
      ≤ s.introduced + ((ops.flatMap fun a => a.1.introduces : List Slice) : Multiset Slice) := by
  induction ops generalizing s with
  | nil => simp
  | cons a ops ih =>
    refine le_trans (ih _) ?_
    have hone : (s.step a).introduced ≤ s.introduced + (a.1.introduces : Multiset Slice) := by
      unfold HierLedger.step
      cases Hier.apply s.store a.1 a.2 s.ino with
      | error e => exact Multiset.le_add_right _ _
      | ok r =>
        refine add_le_add le_rfl ?_
        cases r.1.response <;> simp [HierOp.introducedBy]
    rw [List.flatMap_cons, ← Multiset.coe_add, ← add_assoc]
    exact add_le_add hone le_rfl

end HierLedgerStep

/-- **Hierarchical reference conservation.**  From a seeded store, after every run whose steps meet
the guard, file records, segments and pending deletes together reference exactly what the accepted
Writes introduced; if all slices handed to the run are distinct, each introduced slice is
referenced exactly once. -/
theorem hier_refs_conserved (store : MetaStore) (ino : InoAllocator) (hseed : Seeded store)
    (ops : List (HierOp × UInt64)) (hnd : (ops.flatMap fun a => a.1.introduces).Nodup)
    (h : Along HierLedger.step HierLedgerGuard (HierLedger.init store ino) ops) :
    let s := run HierLedger.step (HierLedger.init store ino) ops
    hierRefs s.store = s.introduced ∧ ∀ x ∈ s.introduced, (hierRefs s.store).count x = 1 := by
  intro s
  have hinv : HierLedgerInv s :=
    h.invariant (fun _ _ hs hg => hs.step hg) (hseed.ledgerInv ino)
  refine ⟨hinv.conserved, fun x hx => ?_⟩
  have hnodup : s.introduced.Nodup :=
    Multiset.nodup_of_le (hier_introduced_run_le (HierLedger.init store ino) ops)
      (by simpa [HierLedger.init] using hnd)
  rw [hinv.conserved]
  exact Multiset.count_eq_one_of_mem hnodup hx

/-- A Write of one slice numbered `i` in the root directory. -/
def demoWriteOne (name : Bytes) (i : UInt32) : HierOp :=
  .Write 1 ROOT_INO name 0 0 (.Slices [⟨i, [], 0⟩]) HttpMeta.default 0

/-- `f` is renamed over `g`, then written and unlinked again. -/
theorem hier_refs_conserved_demo :
    let ops : List (HierOp × UInt64) :=
      [(demoWriteOne [0x66] 1, 0), (demoWriteOne [0x67] 2, 1),
        (.RenameSameDir 1 ROOT_INO [0x66] [0x67] 7, 2), (demoWriteOne [0x66] 3, 3),
        (.Unlink 1 ROOT_INO [0x66] 8, 4)]
    Along HierLedger.step HierLedgerGuard (HierLedger.init demoRoot ⟨1, 0⟩) ops
      ∧ ∀ x ∈ (run HierLedger.step (HierLedger.init demoRoot ⟨1, 0⟩) ops).introduced,
        (hierRefs (run HierLedger.step (HierLedger.init demoRoot ⟨1, 0⟩) ops).store).count x = 1 :=
  ⟨by decide +kernel, (hier_refs_conserved demoRoot ⟨1, 0⟩ seeded_demoRoot _ (by decide +kernel)
    (by decide +kernel)).2⟩

/-- Renaming a file of 65 slices drops the segment uncaptured: its slice was introduced by an
accepted Write and is referenced nowhere. -/
theorem refs_lost_rename :
    let s := run HierLedger.step (HierLedger.init demoRoot ⟨1, 0⟩)
      [(demoWrite [0x66] 65, 0), (.RenameSameDir 1 ROOT_INO [0x66] [0x67] 7, 1)]
    (⟨64, [], 0⟩ : Slice) ∈ s.introduced ∧ (hierRefs s.store).count ⟨64, [], 0⟩ = 0 := by
  decide +kernel

end Epoch
