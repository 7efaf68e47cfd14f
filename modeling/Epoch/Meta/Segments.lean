import Epoch.Meta.Store.Engine

/-!
# Overflow segments

Both namespaces keep the tail of a long slice list in `meta_seg` entries numbered from zero under
the record's key.  This module says when rewriting one record's segments is safe.

`SegsAre m b k segs` reads: the entries of `(b, k)` in the family `m` are exactly `segs`.  The
handlers replace the segments of `(b, k)` by deleting whatever a prefix walk finds and putting the
new ones.  If the walk only finds entries of `(b, k)` itself (`SegIsolated`), the new segments are
exactly what is stored afterwards and every other record keeps its own (`segsAre_replace`,
`segs_replace_frame`).  Without it the walk also deletes segments of records whose key extends `k`,
or whose key is `k` with leading bytes of a segment number moved into it.
-/

namespace Epoch

/-- The key of segment `segNo` of the record at routing key `k`. -/
def segmentKey (b : BucketId) (k : Bytes) (segNo : UInt32) : Bytes :=
  flatKey .MetaSeg b k (segNoSuffix segNo)

/-- `seg_no as u32` over `segments.iter().enumerate()`. -/
def segmentPuts (segKey : UInt32 → Bytes) (segments : List SliceSegment) : List StoreOp :=
  segments.zipIdx.map fun e => WriteOp.put .MetaSeg (segKey (UInt32.ofNat e.2)) (.Segment e.1)

def segmentAt (store : MetaStore) (key : Bytes) : Except MetaStoreError (Option SliceSegment) :=
  match store.get .MetaSeg key with
  | none => .ok none
  | some v => (decode MetaValue.segment? v).map some

/-- The internal-error statuses of the read path. -/
inductive ReadError
  | Head (cause : MetaStoreError)
  | Segment (segNo : UInt32) (cause : MetaStoreError)
  | SegmentAbsent (segNo : UInt32)
deriving DecidableEq, Repr

/-- The segment loop of a read: `count` segments from `segNo` on, appended in order. -/
def readSegments (store : MetaStore) (segKey : UInt32 → Bytes) :
    ℕ → UInt32 → List Slice → Except ReadError (List Slice)
  | 0, _, slices => .ok slices
  | count + 1, segNo, slices =>
    match segmentAt store (segKey segNo) with
    | .error e => .error (.Segment segNo e)
    | .ok none => .error (.SegmentAbsent segNo)
    | .ok (some segment) =>
      readSegments store segKey count (segNo + 1) (slices ++ segment.slices)

/-- The segments stored for `(b, k)` are exactly `segs`. -/
def SegsAre (m : OrdMap Bytes MetaValue) (b : BucketId) (k : Bytes) (segs : List SliceSegment) :
    Prop :=
  ∀ i : UInt32, m.get (segmentKey b k i) = segs[i.toNat]?.map MetaValue.Segment

/-- Every stored segment under the prefix of `(b, k)` has the length of a segment key of `(b, k)`
itself: no other record's segments lie in the way of its prefix walk. -/
def SegIsolated (m : OrdMap Bytes MetaValue) (b : BucketId) (k : Bytes) : Prop :=
  ∀ e ∈ m.toList, flatKey .MetaSeg b k [] <+: e.1 →
    e.1.length = (flatKey .MetaSeg b k []).length + 4

instance (m : OrdMap Bytes MetaValue) (b : BucketId) (k : Bytes) : Decidable (SegIsolated m b k) :=
  inferInstanceAs (Decidable (∀ e ∈ m.toList, _ → _))

/-! ## Keys -/

variable {b b' : BucketId} {k k' : Bytes} {segs : List SliceSegment} {m : OrdMap Bytes MetaValue}
  {i : UInt32} {store : MetaStore}

lemma segmentKey_inj {i' : UInt32} :
    segmentKey b k i = segmentKey b' k' i' ↔ b = b' ∧ k = k' ∧ i = i' := by
  rw [segmentKey, segmentKey, flatKey_eq_iff (by simp), segNoSuffix_inj]

lemma prefix_segmentKey (b : BucketId) (k : Bytes) (i : UInt32) :
    flatKey .MetaSeg b k [] <+: segmentKey b k i := by
  rw [segmentKey, flatKey_prefix_iff]
  exact ⟨rfl, by simp⟩

lemma length_segmentKey (b : BucketId) (k : Bytes) (i : UInt32) :
    (segmentKey b k i).length = (flatKey .MetaSeg b k []).length + 4 := by
  simp [segmentKey, flatKey]
  omega

/-- Under isolation a walked segment entry belongs to no other record. -/
lemma SegIsolated.eq_of_prefix {v : MetaValue} (h : SegIsolated m b k)
    (hget : m.get (segmentKey b' k' i) = some v)
    (hp : flatKey .MetaSeg b k [] <+: segmentKey b' k' i) : b' = b ∧ k' = k := by
  have hlen := h _ ((m.mem_toList_iff _ _).mpr hget) hp
  rw [length_segmentKey] at hlen
  have hkk : k'.length = k.length := by
    simp only [flatKey, List.length_cons, List.length_append] at hlen
    simpa using hlen
  rw [segmentKey, flatKey_prefix_iff] at hp
  obtain ⟨hb, t, ht⟩ := hp
  rw [List.append_nil] at ht
  exact ⟨hb.symm, (List.append_inj ht (by omega)).1.symm⟩

/-! ## Replacing segments -/

/-- The writes of `segmentPuts`. -/
abbrev segWrites (b : BucketId) (k : Bytes) (segs : List SliceSegment) :
    List (Bytes × Option MetaValue) :=
  segs.zipIdx.map fun e => (segmentKey b k (UInt32.ofNat e.2), some (MetaValue.Segment e.1))

@[simp] lemma segWrites_nil (b : BucketId) (k : Bytes) : segWrites b k [] = [] := rfl

@[simp] lemma on_segmentPuts (c : MetaCf) (segKey : UInt32 → Bytes) (segs : List SliceSegment) :
    KvStore.on c (segmentPuts segKey segs)
      = if c = .MetaSeg then
          segs.zipIdx.map fun e => (segKey (UInt32.ofNat e.2), some (MetaValue.Segment e.1))
        else [] := by
  have h : segmentPuts segKey segs
      = (segs.zipIdx.map fun e => (segKey (UInt32.ofNat e.2), MetaValue.Segment e.1)).map
          fun e => WriteOp.put .MetaSeg e.1 e.2 := by
    simp [segmentPuts]
  rw [h, on_map_put]
  by_cases hc : c = .MetaSeg
  · subst hc; simp
  · simp [hc, Ne.symm hc]

lemma get_segWrites_other (segs : List SliceSegment) (i : UInt32) (hne : (b', k') ≠ (b, k)) :
    (m.writeAll (segWrites b k segs)).get (segmentKey b' k' i) = m.get (segmentKey b' k' i) := by
  refine OrdMap.get_writeAll_of_notMem ?_
  simp only [List.map_map, List.mem_map, Function.comp_apply, not_exists, not_and]
  intro e _ heq
  obtain ⟨rfl, rfl, -⟩ := segmentKey_inj.mp heq
  exact hne rfl

lemma get_segWrites_of_lt (hlen : segs.length < 2 ^ 32) (hi : i.toNat < segs.length) :
    (m.writeAll (segWrites b k segs)).get (segmentKey b k i)
      = some (.Segment segs[i.toNat]) := by
  refine OrdMap.get_writeAll_of_forall ?_ ?_
  · refine List.mem_map.mpr ⟨(segs[i.toNat], i.toNat), ?_, ?_⟩
    · rw [List.mk_mem_zipIdx_iff_getElem?]
      simp [hi]
    · simp
  · intro o' ho'
    obtain ⟨⟨seg, j⟩, hmem, heq⟩ := List.mem_map.mp ho'
    rw [List.mk_mem_zipIdx_iff_getElem?] at hmem
    obtain ⟨hkey, ho⟩ := Prod.ext_iff.mp heq
    obtain ⟨-, -, hij⟩ := segmentKey_inj.mp hkey
    obtain ⟨hj, hseg⟩ := List.getElem?_eq_some_iff.mp hmem
    -- the numbers do not wrap, so this is the entry of `i`
    have hji : j = i.toNat := by
      rw [← hij, toNat_ofNat32 (by omega)]
    subst hji
    simp only at ho
    rw [← ho, ← hseg]

lemma get_segWrites_of_ge (hlen : segs.length < 2 ^ 32) (hi : segs.length ≤ i.toNat) :
    (m.writeAll (segWrites b k segs)).get (segmentKey b k i) = m.get (segmentKey b k i) := by
  refine OrdMap.get_writeAll_of_notMem ?_
  simp only [List.map_map, List.mem_map, Function.comp_apply, not_exists, not_and]
  rintro ⟨seg, j⟩ hmem heq
  rw [List.mk_mem_zipIdx_iff_getElem?] at hmem
  obtain ⟨hj, -⟩ := List.getElem?_eq_some_iff.mp hmem
  obtain ⟨-, -, hij⟩ := segmentKey_inj.mp heq
  have : i.toNat = j := by rw [← hij, toNat_ofNat32 (by omega)]
  omega

/-- Putting segments where the record has none. -/
lemma segsAre_put (hlen : segs.length < 2 ^ 32) (hnone : SegsAre m b k []) :
    SegsAre (m.writeAll (segWrites b k segs)) b k segs := by
  intro i
  by_cases hi : i.toNat < segs.length
  · rw [get_segWrites_of_lt hlen hi]
    simp [hi]
  · rw [get_segWrites_of_ge hlen (not_lt.mp hi), hnone i]
    simp [not_lt.mp hi]

section Walk

variable {store : MetaStore} {b : BucketId} {k : Bytes}

/-- The deletes of a segment walk over `(b, k)`. -/
abbrev segDeletes (store : MetaStore) (b : BucketId) (k : Bytes) :
    List (Bytes × Option MetaValue) :=
  (scanPrefix store .MetaSeg (flatKey .MetaSeg b k []) 1024).map fun e => (e.1, none)

lemma writeAll_segDeletes :
    (store .MetaSeg).writeAll (segDeletes store b k)
      = (store .MetaSeg).filter fun e => !(flatKey .MetaSeg b k []).isPrefixOf e.1 :=
  writeAll_scanPrefix_deletes store (by decide) b k [] (by decide)

/-- A walk leaves the walked record no segments, isolated or not, also when earlier writes of the
batch have not added any. -/
lemma segsAre_nil_of_walk_after {m : OrdMap Bytes MetaValue}
    (hm : ∀ i, (store .MetaSeg).get (segmentKey b k i) = none → m.get (segmentKey b k i) = none) :
    SegsAre (m.writeAll (segDeletes store b k)) b k [] := by
  intro i
  have hlist : segDeletes store b k
      = ((scanPrefix store .MetaSeg (flatKey .MetaSeg b k []) 1024).map Prod.fst).map
          fun x => (x, none) := by
    simp [segDeletes, List.map_map, Function.comp_def]
  rw [hlist, OrdMap.get_writeAll_deletes]
  split_ifs with hmem
  · rfl
  · refine hm i (Option.eq_none_iff_forall_not_mem.mpr fun v hv => hmem ?_)
    exact List.mem_map.mpr ⟨(segmentKey b k i, v),
      (mem_scanPrefix (by decide) (by decide)).mpr ⟨hv, prefix_segmentKey b k i⟩, rfl⟩

lemma segsAre_nil_of_walk : SegsAre ((store .MetaSeg).writeAll (segDeletes store b k)) b k [] :=
  segsAre_nil_of_walk_after fun _ h => h

variable {b' : BucketId} {k' : Bytes}

lemma notMem_segDeletes (hiso : SegIsolated (store .MetaSeg) b k) (hne : (b', k') ≠ (b, k))
    (i : UInt32) :
    segmentKey b' k' i ∉ (segDeletes store b k).map Prod.fst := by
  intro hmem
  rw [List.map_map] at hmem
  obtain ⟨e, he, heq⟩ := List.mem_map.mp hmem
  obtain ⟨hget, hp⟩ := (mem_scanPrefix (by decide) (by decide)).mp he
  simp only [Function.comp_apply] at heq
  rw [heq] at hget hp
  obtain ⟨rfl, rfl⟩ := hiso.eq_of_prefix hget hp
  exact hne rfl

/-- An isolated walk touches no other record's segments. -/
lemma segs_walk_frame (m : OrdMap Bytes MetaValue) (hiso : SegIsolated (store .MetaSeg) b k)
    (hne : (b', k') ≠ (b, k)) (i : UInt32) :
    (m.writeAll (segDeletes store b k)).get (segmentKey b' k' i) = m.get (segmentKey b' k' i) :=
  OrdMap.get_writeAll_of_notMem (notMem_segDeletes hiso hne i)

/-- **Replacing a record's segments** leaves exactly the new ones. -/
theorem segsAre_replace {segs : List SliceSegment} (hlen : segs.length < 2 ^ 32) :
    SegsAre ((store .MetaSeg).writeAll (segDeletes store b k ++ segWrites b k segs)) b k segs := by
  rw [OrdMap.writeAll_append]
  exact segsAre_put hlen segsAre_nil_of_walk

/-- **Replacing isolated segments** changes no other record's. -/
theorem segs_replace_frame (hiso : SegIsolated (store .MetaSeg) b k) (segs : List SliceSegment)
    (hne : (b', k') ≠ (b, k)) (i : UInt32) :
    ((store .MetaSeg).writeAll (segDeletes store b k ++ segWrites b k segs)).get
        (segmentKey b' k' i)
      = (store .MetaSeg).get (segmentKey b' k' i) := by
  rw [OrdMap.writeAll_append, get_segWrites_other segs i hne, segs_walk_frame _ hiso hne]

end Walk

/-! ## Reading -/

/-- The first segments of `(b, k)` are `segs`; a read does not look further. -/
def SegsBegin (m : OrdMap Bytes MetaValue) (b : BucketId) (k : Bytes) (segs : List SliceSegment) :
    Prop :=
  ∀ (i : UInt32) (hi : i.toNat < segs.length),
    m.get (segmentKey b k i) = some (.Segment segs[i.toNat])

lemma SegsAre.begin (h : SegsAre m b k segs) : SegsBegin m b k segs := by
  intro i hi
  rw [h i]
  simp [hi]

lemma segmentAt_of_segsBegin (h : SegsBegin (store .MetaSeg) b k segs)
    (hi : i.toNat < segs.length) :
    segmentAt store (segmentKey b k i) = .ok (some segs[i.toNat]) := by
  have hget : store.get .MetaSeg (segmentKey b k i) = some (.Segment segs[i.toNat]) := h i hi
  simp [segmentAt, hget, decode, MetaValue.segment?, Except.map]

lemma readSegments_from (h : SegsBegin (store .MetaSeg) b k segs) (hlen : segs.length < 2 ^ 32)
    (count n : ℕ) (hn : n + count = segs.length) (acc : List Slice) :
    readSegments store (segmentKey b k) count (UInt32.ofNat n) acc
      = .ok (acc ++ (segs.drop n).flatMap SliceSegment.slices) := by
  induction count generalizing n acc with
  | zero =>
    rw [List.drop_of_length_le (by omega)]
    simp [readSegments]
  | succ count ih =>
    have hlt : n < segs.length := by omega
    have hnat : (UInt32.ofNat n).toNat = n := toNat_ofNat32 (by omega)
    have hseg := segmentAt_of_segsBegin h (i := UInt32.ofNat n) (by omega)
    have hsucc : UInt32.ofNat n + 1 = UInt32.ofNat (n + 1) := by rw [UInt32.ofNat_add]; rfl
    simp only [readSegments, hseg, hnat]
    rw [hsucc, ih (n + 1) (by omega), List.drop_eq_getElem_cons hlt, List.flatMap_cons,
      List.append_assoc]

/-- **Reading all segments** yields their slices in order. -/
theorem readSegments_of_segsBegin (h : SegsBegin (store .MetaSeg) b k segs)
    (hlen : segs.length < 2 ^ 32) (acc : List Slice) :
    readSegments store (segmentKey b k) segs.length 0 acc
      = .ok (acc ++ segs.flatMap SliceSegment.slices) :=
  readSegments_from h hlen segs.length 0 (by omega) acc

lemma readSegments_of_segsAre (h : SegsAre (store .MetaSeg) b k segs)
    (hlen : segs.length < 2 ^ 32) (acc : List Slice) :
    readSegments store (segmentKey b k) segs.length 0 acc
      = .ok (acc ++ segs.flatMap SliceSegment.slices) :=
  readSegments_of_segsBegin h.begin hlen acc

end Epoch
