import Epoch.Meta.Segments

/-!
# Counting references

`refs store` is the multiset of slices the store references: those of live heads and file
records, overflow segments, stored parts and pending deletes.  Conservation says that every op
changes it by exactly the slices the op introduces.

Here are the pieces such an argument is made of, shared by both namespaces: what the handlers'
writes do to each family's share.  A put trades the old value's references for the new one's
(`held_put`); replacing a record's segments gives back what the walk found and adds the new ones
(`held_segs_replace`), so that replacing a whole record balances (`replace_balance`); enqueueing under a fresh sequence number adds exactly the enqueued slices
(`held_enqueue`), provided earlier entries carry smaller numbers (`DelqBelow`) and there are
fewer than 2³² of them.
-/

namespace Epoch

/-- The references a value of family `cf` holds, pending deletes included. -/
def references (cf : MetaCf) (v : MetaValue) : List Slice :=
  match cf with
  | .Delq => (v.pending?.map PendingDelete.slices).getD []
  | cf => extract cf v

/-- The references held by one family. -/
def held (cf : MetaCf) (store : MetaStore) : Multiset Slice :=
  OrdMap.total (fun _ v => (references cf v : Multiset Slice)) (store cf)

/-- Everything the store references. -/
def refs (store : MetaStore) : Multiset Slice :=
  held .Meta store + held .Fs store + held .MetaSeg store + held .Upload store + held .Delq store

/-- The references of a list of entries of one family. -/
def entriesRefs (cf : MetaCf) (es : List (Bytes × MetaValue)) : Multiset Slice :=
  (es.map fun e => (references cf e.2 : Multiset Slice)).sum

variable {store : MetaStore} {ops : List StoreOp} {cf : MetaCf}

@[simp] lemma entriesRefs_nil : entriesRefs cf [] = 0 := rfl

@[simp] lemma entriesRefs_cons (e : Bytes × MetaValue) (es : List (Bytes × MetaValue)) :
    entriesRefs cf (e :: es) = (references cf e.2 : Multiset Slice) + entriesRefs cf es := by
  simp [entriesRefs]

lemma entriesRefs_eq_coe (es : List (Bytes × MetaValue)) :
    entriesRefs cf es = ((es.flatMap fun e => references cf e.2 : List Slice) : Multiset Slice) := by
  induction es with
  | nil => rfl
  | cons e es ih => rw [entriesRefs_cons, ih, List.flatMap_cons, Multiset.coe_add]

@[simp] lemma held_empty : held cf KvStore.empty = 0 := rfl

/-! ## Single writes -/

lemma held_frame (h : KvStore.on cf ops = []) : held cf (store.applyBatch ops) = held cf store := by
  rw [held, held, KvStore.applyBatch_of_on_eq_nil h]

/-- The references of a value, if there is one. -/
def refsOf (cf : MetaCf) (o : Option MetaValue) : Multiset Slice :=
  o.elim 0 fun v => (references cf v : Multiset Slice)

@[simp] lemma refsOf_none : refsOf cf none = 0 := rfl

lemma refsOf_eq (o : Option MetaValue) :
    refsOf cf o = (o.map fun v => (references cf v : Multiset Slice)).getD 0 := by
  cases o <;> rfl

/-- The references of the value stored at a key. -/
def refsAt (cf : MetaCf) (store : MetaStore) (key : Bytes) : Multiset Slice :=
  refsOf cf (store.get cf key)

/-- Writes to distinct keys trade the old values' references for the new ones'. -/
lemma held_writes (store : MetaStore) {ws : List (Bytes × Option MetaValue)}
    (h : KvStore.on cf ops = ws) (hnd : (ws.map Prod.fst).Nodup) :
    held cf (store.applyBatch ops) + (ws.map fun w => refsAt cf store w.1).sum
      = held cf store + (ws.map fun w => refsOf cf w.2).sum := by
  have htotal := OrdMap.total_writeAll (fun _ v => (references cf v : Multiset Slice)) (store cf) ws
    hnd
  rw [held, held, KvStore.applyBatch_cf, h]
  simpa only [refsOf_eq, refsAt, MetaStore.get] using htotal

/-- A put trades the old value's references for the new one's. -/
lemma held_put {key : Bytes} {v : MetaValue} (h : KvStore.on cf ops = [(key, some v)]) :
    held cf (store.applyBatch ops) + refsAt cf store key
      = held cf store + (references cf v : Multiset Slice) := by
  simpa [refsOf] using held_writes store h (by simp)

variable {b : BucketId} {k : Bytes} {segs : List SliceSegment} {seq : UInt64} {ts : Int64}
  {cs : List (List Slice)} {bound : ℕ}

/-- Deleting what a prefix walk found gives its references back. -/
lemma held_walk (hcf : cf ≠ .Applied) {b : BucketId} {k t : Bytes} {limit : ℕ} (hl : 0 < limit)
    (h : KvStore.on cf ops
      = (scanPrefix store cf (flatKey cf b k t) limit).map fun e => (e.1, none)) :
    held cf (store.applyBatch ops)
        + entriesRefs cf (scanPrefix store cf (flatKey cf b k t) limit)
      = held cf store := by
  rw [held, held, KvStore.applyBatch_cf, h, scanPrefix_eq store hcf b k t hl]
  exact OrdMap.total_writeAll_erase_filter _ _ fun key => (flatKey cf b k t).isPrefixOf key

/-! ## Segments -/

/-- The references of a list of segments. -/
def segsRefs (segs : List SliceSegment) : Multiset Slice :=
  ((segs.flatMap SliceSegment.slices : List Slice) : Multiset Slice)

lemma total_segWrites {m : OrdMap Bytes MetaValue} (hlen : segs.length < 2 ^ 32)
    (hnone : SegsAre m b k []) :
    OrdMap.total (fun _ v => (references .MetaSeg v : Multiset Slice))
        (m.writeAll (segWrites b k segs))
      = OrdMap.total (fun _ v => (references .MetaSeg v : Multiset Slice)) m + segsRefs segs := by
  have hes : segWrites b k segs
      = (segs.zipIdx.map fun e => (segmentKey b k (UInt32.ofNat e.2), MetaValue.Segment e.1)).map
          fun e => (e.1, some e.2) := by
    rw [List.map_map]
    rfl
  rw [hes, OrdMap.total_writeAll_fresh]
  · congr 1
    rw [List.map_map]
    have hzip : ∀ (l : List SliceSegment) (n : ℕ),
        ((l.zipIdx n).map ((fun e : Bytes × MetaValue =>
            (references .MetaSeg e.2 : Multiset Slice))
          ∘ fun e => (segmentKey b k (UInt32.ofNat e.2), MetaValue.Segment e.1))).sum
          = segsRefs l := by
      intro l
      induction l with
      | nil => intro n; rfl
      | cons seg l ih =>
        intro n
        rw [List.zipIdx_cons, List.map_cons, List.sum_cons, ih]
        rfl
    exact hzip segs 0
  · rw [List.map_map]
    refine List.Nodup.map_on ?_ (List.Nodup.of_map Prod.snd ?_)
    · rintro ⟨seg, i⟩ hi ⟨seg', j⟩ hj hij
      rw [List.mk_mem_zipIdx_iff_getElem?] at hi hj
      obtain ⟨hi', rfl⟩ := List.getElem?_eq_some_iff.mp hi
      obtain ⟨hj', rfl⟩ := List.getElem?_eq_some_iff.mp hj
      have hn := (segmentKey_inj.mp hij).2.2
      simp only at hn
      have : i = j := by
        rw [← toNat_ofNat32 (n := i) (by omega), hn, toNat_ofNat32 (by omega)]
      subst this
      rfl
    · rw [List.zipIdx_map_snd]
      exact List.nodup_range'
  · intro e he
    obtain ⟨⟨seg, i⟩, -, rfl⟩ := List.mem_map.mp he
    simpa using hnone (UInt32.ofNat i)

lemma held_segs_put (hlen : segs.length < 2 ^ 32) (hnone : SegsAre (store .MetaSeg) b k [])
    (h : store.applyBatch ops .MetaSeg = (store .MetaSeg).writeAll (segWrites b k segs)) :
    held .MetaSeg (store.applyBatch ops) = held .MetaSeg store + segsRefs segs := by
  rw [held, held, h]
  exact total_segWrites hlen hnone

/-- **Replacing segments** gives back what the walk found and adds the new ones.  The walk may have
found other records' segments; they are given back too. -/
lemma held_segs_replace {b : BucketId} {k : Bytes} {segs : List SliceSegment}
    (hlen : segs.length < 2 ^ 32)
    (h : store.applyBatch ops .MetaSeg
      = (store .MetaSeg).writeAll (segDeletes store b k ++ segWrites b k segs)) :
    held .MetaSeg (store.applyBatch ops)
        + entriesRefs .MetaSeg (scanPrefix store .MetaSeg (flatKey .MetaSeg b k []) 1024)
      = held .MetaSeg store + segsRefs segs := by
  have hwalk : OrdMap.total (fun _ v => (references .MetaSeg v : Multiset Slice))
        ((store .MetaSeg).writeAll (segDeletes store b k))
      + entriesRefs .MetaSeg (scanPrefix store .MetaSeg (flatKey .MetaSeg b k []) 1024)
      = held .MetaSeg store := by
    rw [segDeletes, scanPrefix_eq store (by decide) b k [] (by decide)]
    exact OrdMap.total_writeAll_erase_filter _ _ fun key => (flatKey .MetaSeg b k []).isPrefixOf key
  rw [held, h, OrdMap.writeAll_append, total_segWrites hlen segsAre_nil_of_walk, ← hwalk]
  abel

/-! ## Captures -/

lemma refsAt_le_held (store : MetaStore) (cf : MetaCf) (key : Bytes) :
    refsAt cf store key ≤ held cf store := by
  rw [refsAt, refsOf_eq, held, ← OrdMap.total_erase _ (store cf) key]
  exact Multiset.le_add_left _ _

lemma entriesRefs_walk_le_held (store : MetaStore) (hcf : cf ≠ .Applied) (b : BucketId)
    (k t : Bytes) {limit : ℕ} (hl : 0 < limit) :
    entriesRefs cf (scanPrefix store cf (flatKey cf b k t) limit) ≤ held cf store := by
  rw [scanPrefix_eq store hcf b k t hl, held,
    ← OrdMap.total_writeAll_erase_filter _ (store cf) fun key => (flatKey cf b k t).isPrefixOf key]
  exact Multiset.le_add_left _ _

/-- What capturing the record at `key`, with its segments under `(b, k)`, collects. -/
def capturedRefs (cf : MetaCf) (store : MetaStore) (key : Bytes) (b : BucketId) (k : Bytes) :
    Multiset Slice :=
  if store.get cf key = none then 0
  else refsAt cf store key
    + entriesRefs .MetaSeg (scanPrefix store .MetaSeg (flatKey .MetaSeg b k []) 1024)

lemma card_capturedRefs_le (cf : MetaCf) (store : MetaStore) (key : Bytes) (b : BucketId)
    (k : Bytes) :
    (capturedRefs cf store key b k).card ≤ (held cf store).card + (held .MetaSeg store).card := by
  unfold capturedRefs
  split_ifs
  · simp
  · rw [Multiset.card_add]
    exact add_le_add (Multiset.card_le_card (refsAt_le_held store cf key))
      (Multiset.card_le_card (entriesRefs_walk_le_held store (by decide) b k [] (by decide)))

/-- **Replacing a record balances**: its family and the segments give up what the capture collects,
and gain the new head's references and the new segments'. -/
theorem replace_balance {key : Bytes} {b : BucketId} {k : Bytes} {segs : List SliceSegment}
    {new : Multiset Slice} (hlen : segs.length < 2 ^ 32)
    (hnone : store.get cf key = none → SegsAre (store .MetaSeg) b k [])
    (hhead : held cf (store.applyBatch ops) + refsAt cf store key = held cf store + new)
    (hseg : store.applyBatch ops .MetaSeg = (store .MetaSeg).writeAll
      ((if store.get cf key = none then [] else segDeletes store b k) ++ segWrites b k segs)) :
    held cf (store.applyBatch ops) + held .MetaSeg (store.applyBatch ops)
        + capturedRefs cf store key b k
      = held cf store + held .MetaSeg store + (new + segsRefs segs) := by
  by_cases hold : store.get cf key = none
  · rw [if_pos hold, List.nil_append] at hseg
    have hat : refsAt cf store key = 0 := by simp [refsAt, hold]
    rw [hat, add_zero] at hhead
    rw [capturedRefs, if_pos hold, held_segs_put hlen (hnone hold) hseg, hhead]
    abel
  · rw [if_neg hold] at hseg
    rw [capturedRefs, if_neg hold]
    calc held cf (store.applyBatch ops) + held .MetaSeg (store.applyBatch ops)
          + (refsAt cf store key
            + entriesRefs .MetaSeg (scanPrefix store .MetaSeg (flatKey .MetaSeg b k []) 1024))
        = (held cf (store.applyBatch ops) + refsAt cf store key)
          + (held .MetaSeg (store.applyBatch ops)
            + entriesRefs .MetaSeg
                (scanPrefix store .MetaSeg (flatKey .MetaSeg b k []) 1024)) := by abel
      _ = held cf store + held .MetaSeg store + (new + segsRefs segs) := by
            rw [hhead, held_segs_replace hlen hseg]
            abel

/-! ## The delete queue -/

/-- Every pending delete carries a sequence number below `seq`. -/
def DelqBelow (store : MetaStore) (seq : ℕ) : Prop :=
  ∀ key v, store.get .Delq key = some v →
    ∃ b k s n, key = delqKey b k s n ∧ s.toNat < seq

lemma DelqBelow.get_eq_none (h : DelqBelow store seq.toNat) (b : BucketId) (k : Bytes)
    (n : UInt32) : (store .Delq).get (delqKey b k seq n) = none := by
  cases hget : (store .Delq).get (delqKey b k seq n) with
  | none => rfl
  | some v =>
    obtain ⟨b', k', s, n', hkey, hlt⟩ := h _ _ hget
    obtain ⟨-, -, rfl, -⟩ := delqKey_inj.mp hkey
    omega

lemma entriesRefs_delqEntries (key : UInt32 → Bytes) (ts : Int64) (first : UInt32)
    (cs : List (List Slice)) :
    entriesRefs .Delq (delqEntries key ts first cs) = ((cs.flatten : List Slice) : Multiset Slice) := by
  induction cs generalizing first with
  | nil => rfl
  | cons c cs ih =>
    rw [delqEntries_cons, entriesRefs_cons, ih, List.flatten_cons, ← Multiset.coe_add]
    rfl

lemma nodup_delqEntries {first : UInt32} (hlen : cs.length ≤ 2 ^ 32) :
    ((delqEntries (delqKey b k seq) ts first cs).map Prod.fst).Nodup := by
  rw [delqEntries, List.map_map]
  refine List.Nodup.map_on ?_ (List.Nodup.of_map Prod.snd ?_)
  · rintro ⟨c, i⟩ hi ⟨c', j⟩ hj hij
    rw [List.mk_mem_zipIdx_iff_getElem?] at hi hj
    obtain ⟨hi', rfl⟩ := List.getElem?_eq_some_iff.mp hi
    obtain ⟨hj', rfl⟩ := List.getElem?_eq_some_iff.mp hj
    have hn := (delqKey_inj.mp hij).2.2.2
    simp only [UInt32.add_right_inj] at hn
    have : i = j := by
      rw [← toNat_ofNat32 (n := i) (by omega), hn, toNat_ofNat32 (by omega)]
    subst this
    rfl
  · rw [List.zipIdx_map_snd]
    exact List.nodup_range'

/-- **Enqueueing under a fresh number** adds exactly the enqueued slices. -/
lemma held_enqueue {b : BucketId} {k : Bytes} {seq : UInt64} {ts : Int64} {cs : List (List Slice)}
    (hbelow : DelqBelow store seq.toNat) (hlen : cs.length ≤ 2 ^ 32)
    (h : KvStore.on .Delq ops
      = (delqEntries (delqKey b k seq) ts 0 cs).map fun e => (e.1, some e.2)) :
    held .Delq (store.applyBatch ops)
      = held .Delq store + ((cs.flatten : List Slice) : Multiset Slice) := by
  rw [held, KvStore.applyBatch_cf, h, OrdMap.total_writeAll_fresh _ _ _ (nodup_delqEntries hlen)]
  · rw [← entriesRefs_delqEntries (delqKey b k seq) ts 0 cs]
    rfl
  · intro e he
    obtain ⟨⟨c, i⟩, -, rfl⟩ := List.mem_map.mp he
    exact hbelow.get_eq_none b k _

/-- A batch that enqueues under `seq`, or not at all, keeps the numbering below `seq + 1`. -/
lemma DelqBelow.enqueue {b : BucketId} {k : Bytes} {seq : UInt64} {ts : Int64}
    {cs : List (List Slice)} {bound : ℕ} (hbelow : DelqBelow store bound) (hle : bound ≤ seq.toNat)
    (h : KvStore.on .Delq ops
      = (delqEntries (delqKey b k seq) ts 0 cs).map fun e => (e.1, some e.2)) :
    DelqBelow (store.applyBatch ops) (seq.toNat + 1) := by
  intro key v hget
  rw [MetaStore.get, KvStore.applyBatch_cf, h] at hget
  rcases OrdMap.get_writeAll_eq_some hget with hmem | hold
  · obtain ⟨e, he, heq⟩ := List.mem_map.mp hmem
    obtain ⟨⟨c, i⟩, -, rfl⟩ := List.mem_map.mp he
    exact ⟨b, k, seq, _, (Prod.ext_iff.mp heq).1.symm, Nat.lt_succ_self _⟩
  · obtain ⟨b', k', s, n, hkey, hlt⟩ := hbelow key v hold
    exact ⟨b', k', s, n, hkey, by omega⟩

lemma DelqBelow.mono {bound' : ℕ} (h : DelqBelow store bound) (hle : bound ≤ bound') :
    DelqBelow store bound' := by
  intro key v hget
  obtain ⟨b, k, s, n, hkey, hlt⟩ := h key v hget
  exact ⟨b, k, s, n, hkey, by omega⟩

lemma DelqBelow.frame {bound' : ℕ} (hbelow : DelqBelow store bound) (hle : bound ≤ bound')
    (h : KvStore.on .Delq ops = []) : DelqBelow (store.applyBatch ops) bound' := by
  intro key v hget
  rw [MetaStore.get, KvStore.applyBatch_of_on_eq_nil h] at hget
  exact hbelow.mono hle key v hget

end Epoch
