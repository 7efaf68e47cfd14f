import Epoch.Meta.Values

/-!
# The engine interface (`store/mod.rs`) and what the namespaces do with it

An engine is a `KvStore` over the column families.  Besides point reads, the apply handlers do
two things with it, both developed here once for flat and hierarchical keys alike.

* They walk every entry under a key prefix, page by page (`scanPrefix`).  The walk returns exactly
  the entries whose key carries the prefix, in key order (`scanPrefix_eq`), so deleting what it
  returned removes those and nothing else.
* They enqueue slices for deletion, one entry per chunk of 1024 under consecutive numbers
  (`delqEntries`).
-/

namespace Epoch

/-- A point read. -/
def MetaStore.get (store : MetaStore) (cf : MetaCf) (key : Bytes) : Option MetaValue :=
  (store cf).get key

/-- One page of an ordered scan. -/
def MetaStore.scan (store : MetaStore) (cf : MetaCf) (start stop : Bytes) (limit : ℕ) :
    List (Bytes × MetaValue) :=
  (store cf).scan start stop limit

/-- The scan loop shared by the handlers: page through `[start, stop)`, resuming at the last key
with a zero byte appended. -/
def MetaStore.scanPages (store : MetaStore) (cf : MetaCf) (start stop : Bytes) (limit : ℕ) :
    List (Bytes × MetaValue) :=
  (store cf).scanAll (fun k => k ++ [0]) start stop limit

/-- The scan loop over every key carrying `p`. -/
def scanPrefix (store : MetaStore) (cf : MetaCf) (p : Bytes) (limit : ℕ) :
    List (Bytes × MetaValue) :=
  store.scanPages cf p ((prefixEnd p).getD [cf.tag + 1]) limit

variable {cf : MetaCf} {limit : ℕ}

/-- A binding present after a batch was put by it or was there before. -/
lemma get_applyBatch_eq_some {store : MetaStore} {ops : List StoreOp} {key : Bytes}
    {v : MetaValue} (h : MetaStore.get (store.applyBatch ops) cf key = some v) :
    (key, some v) ∈ KvStore.on cf ops ∨ store.get cf key = some v := by
  rw [MetaStore.get, KvStore.applyBatch_cf] at h
  exact OrdMap.get_writeAll_eq_some h

/-! ## Prefix walks -/

lemma scanPages_eq_range (store : MetaStore) (cf : MetaCf) (start stop : Bytes)
    (hlimit : 0 < limit) :
    store.scanPages cf start stop limit = (store cf).range start stop :=
  OrdMap.scanAll_eq_range _ lt_iff_succ_le _ _ hlimit

/-- **A prefix walk returns the entries that carry the prefix.** -/
theorem scanPrefix_eq (store : MetaStore) (hcf : cf ≠ MetaCf.Applied) (b : BucketId) (k s : Bytes)
    (hlimit : 0 < limit) :
    scanPrefix store cf (flatKey cf b k s) limit
      = (store cf).toList.filter fun e => (flatKey cf b k s).isPrefixOf e.1 := by
  obtain ⟨stop, hstop⟩ := prefixEnd_flatKey_isSome hcf b k s
  rw [scanPrefix, scanPages_eq_range _ _ _ _ hlimit, hstop, Option.getD_some, OrdMap.range]
  congr 1
  funext e
  rw [Bool.eq_iff_iff, List.isPrefixOf_iff_prefix, ← prefixEnd_spec hstop]
  simp

lemma mem_scanPrefix {store : MetaStore} (hcf : cf ≠ MetaCf.Applied) {b : BucketId} {k s : Bytes}
    (hlimit : 0 < limit) {e : Bytes × MetaValue} :
    e ∈ scanPrefix store cf (flatKey cf b k s) limit
      ↔ (store cf).get e.1 = some e.2 ∧ flatKey cf b k s <+: e.1 := by
  rw [scanPrefix_eq store hcf b k s hlimit, List.mem_filter, OrdMap.mem_toList_iff,
    List.isPrefixOf_iff_prefix]

/-- Deleting what a prefix walk returned keeps exactly the other entries. -/
lemma writeAll_scanPrefix_deletes (store : MetaStore) (hcf : cf ≠ MetaCf.Applied) (b : BucketId)
    (k s : Bytes) (hlimit : 0 < limit) :
    (store cf).writeAll
        ((scanPrefix store cf (flatKey cf b k s) limit).map fun e => (e.1, none))
      = (store cf).filter fun e => !(flatKey cf b k s).isPrefixOf e.1 := by
  rw [scanPrefix_eq store hcf b k s hlimit]
  exact OrdMap.writeAll_erase_filter _ fun key => (flatKey cf b k s).isPrefixOf key

/-- A key under a prefix that is exactly `n` bytes longer is the prefix with a suffix of `n`. -/
lemma exists_suffix_of_prefix {p key : Bytes} {n : ℕ} (h : p <+: key)
    (hlen : key.length = p.length + n) : ∃ t : Bytes, t.length = n ∧ key = p ++ t := by
  obtain ⟨t, rfl⟩ := h
  rw [List.length_append] at hlen
  exact ⟨t, by omega, rfl⟩

/-! ## Batch shares -/

@[simp] lemma on_map_put (c cf : MetaCf) (es : List (Bytes × MetaValue)) :
    KvStore.on c (es.map fun e => (WriteOp.put cf e.1 e.2 : StoreOp))
      = if cf = c then es.map fun e => (e.1, some e.2) else [] := by
  induction es with
  | nil => simp
  | cons e es ih =>
    rw [List.map_cons, KvStore.on_cons, ih]
    by_cases h : cf = c <;> simp [WriteOp.put, h]

@[simp] lemma on_map_delete (c cf : MetaCf) (es : List (Bytes × MetaValue)) :
    KvStore.on c (es.map fun e => (WriteOp.delete cf e.1 : StoreOp))
      = if cf = c then es.map fun e => (e.1, none) else [] := by
  induction es with
  | nil => simp
  | cons e es ih =>
    rw [List.map_cons, KvStore.on_cons, ih]
    by_cases h : cf = c <;> simp [WriteOp.delete, h]

/-- The delete-queue key of entry `segNo` of event `seq` at routing key `k`. -/
def delqKey (b : BucketId) (k : Bytes) (seq : UInt64) (segNo : UInt32) : Bytes :=
  flatKey .Delq b k (delqSeqSuffix seq segNo)

lemma delqKey_inj {b b' : BucketId} {k k' : Bytes} {s s' : UInt64} {n n' : UInt32} :
    delqKey b k s n = delqKey b' k' s' n' ↔ b = b' ∧ k = k' ∧ s = s' ∧ n = n' := by
  rw [delqKey, delqKey, flatKey_eq_iff (by simp), delqSeqSuffix_inj]

/-- The entries `enqueueDeleteSlices` adds to the delete queue. -/
def delqEntries (delqKey : UInt32 → Bytes) (ts : Int64) (first : UInt32)
    (cs : List (List Slice)) : List (Bytes × MetaValue) :=
  cs.zipIdx.map fun e => (delqKey (first + UInt32.ofNat e.2), .Pending ⟨e.1, ts⟩)

lemma delqEntries_cons (delqKey : UInt32 → Bytes) (ts : Int64) (first : UInt32)
    (c : List Slice) (cs : List (List Slice)) :
    delqEntries delqKey ts first (c :: cs)
      = (delqKey first, .Pending ⟨c, ts⟩) :: delqEntries delqKey ts (first + 1) cs := by
  have hshift : ∀ x : UInt32, first + (x + 1) = first + 1 + x := by
    intro x
    rw [UInt32.add_comm x, UInt32.add_assoc]
  simp only [delqEntries, List.zipIdx_cons, List.map_cons, Nat.zero_add]
  congr 1
  · simp
  · rw [List.zipIdx_succ, List.map_map]
    exact List.map_congr_left fun e _ => by simp [hshift]

lemma delqEntries_append (delqKey : UInt32 → Bytes) (ts : Int64) (first : UInt32)
    (cs cs' : List (List Slice)) :
    delqEntries delqKey ts first (cs ++ cs')
      = delqEntries delqKey ts first cs
        ++ delqEntries delqKey ts (first + UInt32.ofNat cs.length) cs' := by
  induction cs generalizing first with
  | nil => simp [delqEntries]
  | cons c cs ih =>
    rw [List.cons_append, delqEntries_cons, delqEntries_cons, ih, List.cons_append,
      List.length_cons, UInt32.ofNat_add, UInt32.add_comm (UInt32.ofNat cs.length),
      ← UInt32.add_assoc]
    rfl

lemma enqueueChunks_eq (delqKey : UInt32 → Bytes) (ts : Int64) (first : UInt32)
    (cs : List (List Slice)) :
    enqueueChunks delqKey ts first cs
      = ((delqEntries delqKey ts first cs).map fun e => WriteOp.put .Delq e.1 e.2,
          first + UInt32.ofNat cs.length) := by
  induction cs generalizing first with
  | nil => simp [enqueueChunks, delqEntries]
  | cons c cs ih =>
    rw [enqueueChunks, ih, delqEntries_cons]
    simp only [List.map_cons, List.length_cons, UInt32.ofNat_add, Prod.mk.injEq, true_and]
    rw [add_assoc, add_comm (1 : UInt32)]
    rfl

lemma on_enqueueDeleteSlices (c : MetaCf) (first : UInt32) (slices : List Slice) (ts : Int64)
    (delqKey : UInt32 → Bytes) :
    KvStore.on c (enqueueDeleteSlices first slices ts delqKey).1
      = if c = .Delq then
          (delqEntries delqKey ts first (chunks SEGMENT_SLICES slices)).map
            fun e => (e.1, some e.2)
        else [] := by
  rw [enqueueDeleteSlices, enqueueChunks_eq, on_map_put]
  by_cases h : c = .Delq
  · subst h; simp
  · simp [h, Ne.symm h]

end Epoch
