import Epoch.Meta.Shapes

/-!
# The collector's keep set (`gc_export.rs`)

`exportReferences` scans the byte bounds of one partition in every family that holds references and
returns the blob ids it finds.  The collector deletes what no partition returns, so the union over
all partitions has to be exactly what the store references.

Splits start from the two full ranges, and each keeps the byte bounds of both halves side by side in
every family, with nothing in between and nothing outside (`keyRange_split`).  The full ranges
themselves divide the shared families at the namespace bit.  So every key of the store is scanned by
some partition, whatever the splits were (`Cover.scanned`), and the union is exact
(`export_references_exact`).
-/

namespace Epoch

def SCAN_PAGE : ℕ := 4096

/-- `export_references`: the blob ids referenced within a partition's byte bounds. -/
def exportReferences (store : MetaStore) (range : PartitionRange) : Finset UInt64 :=
  ((range.keyRanges.filter fun r => r.cf ≠ .Delq ∧ r.cf ≠ .Ttl).flatMap fun r =>
    (store.scanPages r.cf r.start r.stop SCAN_PAGE).flatMap fun e =>
      (extract r.cf e.2).flatMap Slice.blobIds).toFinset

/-- The blob ids a store references: in the slice lists of live heads and files, of overflow
segments and of stored parts. -/
inductive Referenced (store : MetaStore) (blob : UInt64) : Prop
  | head {key : Bytes} {h : ObjectHead} {slices : List Slice} {s : Slice}
      (hget : store.get .Meta key = some (.Head h)) (hc : h.content = .Slices slices)
      (hs : s ∈ slices) (hb : blob ∈ s.blobIds) : Referenced store blob
  | file {key : Bytes} {f : FileRecord} {slices : List Slice} {s : Slice}
      (hget : store.get .Fs key = some (.Fs (.File f))) (hc : f.content = .Slices slices)
      (hs : s ∈ slices) (hb : blob ∈ s.blobIds) : Referenced store blob
  | segment {key : Bytes} {seg : SliceSegment} {s : Slice}
      (hget : store.get .MetaSeg key = some (.Segment seg)) (hs : s ∈ seg.slices)
      (hb : blob ∈ s.blobIds) : Referenced store blob
  | part {key : Bytes} {p : PartMeta} {s : Slice}
      (hget : store.get .Upload key = some (.Part p)) (hs : s ∈ p.slices)
      (hb : blob ∈ s.blobIds) : Referenced store blob

/-! ## What one partition scans -/

/-- The partition's scan of family `c` passes over `key`. -/
def PartitionRange.scans (r : PartitionRange) (c : MetaCf) (key : Bytes) : Prop :=
  c ∈ PartitionRange.exportedCfs r.ns ∧ (r.keyRange c).start ≤ key ∧ key < (r.keyRange c).stop

lemma mem_exportReferences {store : MetaStore} {r : PartitionRange} {blob : UInt64} :
    blob ∈ exportReferences store r
      ↔ ∃ c key v, (c ≠ .Delq ∧ c ≠ .Ttl) ∧ r.scans c key ∧ store.get c key = some v
        ∧ ∃ s ∈ extract c v, blob ∈ s.blobIds := by
  have hpage : ∀ c e, e ∈ store.scanPages c (r.keyRange c).start (r.keyRange c).stop SCAN_PAGE
      ↔ store.get c e.1 = some e.2 ∧ (r.keyRange c).start ≤ e.1 ∧ e.1 < (r.keyRange c).stop := by
    intro c e
    rw [scanPages_eq_range _ _ _ _ (by decide), OrdMap.mem_range]
    rfl
  simp only [exportReferences, List.mem_toFinset, List.mem_flatMap, List.mem_filter,
    PartitionRange.keyRanges, List.mem_map, decide_eq_true_eq]
  constructor
  · rintro ⟨_, ⟨⟨c, hc, rfl⟩, hcf⟩, e, he, s, hs, hb⟩
    rw [PartitionRange.keyRange_cf] at hcf he hs
    obtain ⟨hget, hbounds⟩ := (hpage c e).mp he
    exact ⟨c, e.1, e.2, hcf, ⟨hc, hbounds⟩, hget, s, hs, hb⟩
  · rintro ⟨c, key, v, hcf, ⟨hc, hbounds⟩, hget, s, hs, hb⟩
    refine ⟨r.keyRange c, ⟨⟨c, hc, rfl⟩, ?_⟩, (key, v), ?_, s, ?_, hb⟩
    · rwa [PartitionRange.keyRange_cf]
    · rw [PartitionRange.keyRange_cf]
      exact (hpage c (key, v)).mpr ⟨hget, hbounds⟩
    · rwa [PartitionRange.keyRange_cf]

/-! ## Covers -/

/-- The families of ranges that splits make of the two full ranges. -/
inductive Cover : List PartitionRange → Prop
  | full : Cover [.full .Flat, .full .Hier]
  | split (rs : List PartitionRange) {rs' : List PartitionRange} {r left right : PartitionRange}
      (at_ : BucketId × Bytes)
      (h : Cover (rs ++ r :: rs')) (hsplit : r.split at_ = some (left, right)) :
      Cover (rs ++ left :: right :: rs')

namespace PartitionRange

lemma lt_ite_iff (x y key : Bytes) : (key < if x < y then x else y) ↔ key < x ∧ key < y := by
  split_ifs with h
  · exact ⟨fun hk => ⟨hk, hk.trans h⟩, And.left⟩
  · exact ⟨fun hk => ⟨hk.trans_le (not_lt.mp h), hk⟩, And.right⟩

lemma ite_le_iff (x y key : Bytes) : (if x < y then y else x) ≤ key ↔ x ≤ key ∧ y ≤ key := by
  split_ifs with h
  · exact ⟨fun hk => ⟨h.le.trans hk, hk⟩, And.right⟩
  · exact ⟨fun hk => ⟨hk, (not_lt.mp h).trans hk⟩, And.left⟩

/-- The end bound of a family; that of `ttl` leaves the routing key out. -/
def endBound (c : MetaCf) (e : BucketId × Bytes) : Bytes :=
  if c = .Ttl then c.tag :: be64 e.1 else cfBound c e

lemma keyRange_eq (r : PartitionRange) (c : MetaCf) :
    r.keyRange c =
      if isSharedCf c then
        match r.ns with
        | .Flat => ⟨c, (r.start.map (cfBound c)).getD [c.tag],
            if nsBitBound c < (r.stop.map (endBound c)).getD [c.tag + 1] then nsBitBound c
            else (r.stop.map (endBound c)).getD [c.tag + 1]⟩
        | .Hier => ⟨c, if (r.start.map (cfBound c)).getD [c.tag] < nsBitBound c then nsBitBound c
            else (r.start.map (cfBound c)).getD [c.tag],
            (r.stop.map (endBound c)).getD [c.tag + 1]⟩
      else ⟨c, (r.start.map (cfBound c)).getD [c.tag], (r.stop.map (endBound c)).getD [c.tag + 1]⟩ := by
  unfold keyRange
  cases r.start <;> cases r.stop <;> rfl

variable {r : PartitionRange} {c : MetaCf}

/-- The scan of a family, bound by bound: from the start on, before the end, and on the namespace's
side of a shared family. -/
lemma scans_iff_bounds (key : Bytes) :
    r.scans c key ↔ c ∈ exportedCfs r.ns
      ∧ (r.start.map (cfBound c)).getD [c.tag] ≤ key ∧ key < (r.stop.map (endBound c)).getD [c.tag + 1]
      ∧ (isSharedCf c = true → (r.ns = .Flat ↔ key < nsBitBound c)) := by
  rw [scans, keyRange_eq r c]
  cases hshared : isSharedCf c with
  | false => simp
  | true =>
    cases hns : r.ns with
    | Flat =>
      simp only [if_true, lt_ite_iff, true_imp_iff, true_iff]
      tauto
    | Hier =>
      simp only [if_true, ite_le_iff, true_imp_iff, reduceCtorEq, false_iff, not_lt]
      tauto

lemma scans_iff (hc : c ≠ .Ttl) (key : Bytes) :
    r.scans c key ↔ c ∈ exportedCfs r.ns
      ∧ (r.start.map (cfBound c)).getD [c.tag] ≤ key ∧ key < (r.stop.map (cfBound c)).getD [c.tag + 1]
      ∧ (isSharedCf c = true → (r.ns = .Flat ↔ key < nsBitBound c)) := by
  have hend : endBound c = cfBound c := funext fun e => if_neg hc
  rw [scans_iff_bounds, hend]

/-- **The halves of a split scan what the whole did.** -/
lemma scans_split {left right : PartitionRange} {at_ : BucketId × Bytes}
    (h : r.split at_ = some (left, right)) (hc : c ≠ .Ttl) {key : Bytes} (hscan : r.scans c key) :
    left.scans c key ∨ right.scans c key := by
  obtain ⟨-, -, rfl, rfl⟩ := split_eq_some h
  rw [scans_iff hc] at hscan ⊢
  rw [scans_iff hc]
  obtain ⟨hcf, hlo, hhi, hside⟩ := hscan
  rcases lt_or_ge key (cfBound c at_) with hlt | hge
  · exact Or.inl ⟨hcf, hlo, hlt, hside⟩
  · exact Or.inr ⟨hcf, hge, hhi, hside⟩

/-- In every family but `ttl` the byte bounds are the membership test. -/
lemma scans_flatKey (hc : c ∈ MetaCf.routed) (b : BucketId) (k : Bytes) :
    r.scans c (flatKey c b k []) ↔ r.contains (flatKey c b k []) = true
      ∧ (isSharedCf c = true → (r.ns = .Flat ↔ b < HIER_BUCKET_BIT)) := by
  have hkey : flatKey c b k [] = cfBound c (b, k) := by simp [flatKey, cfBound]
  have hne : c ≠ .Ttl := by rintro rfl; simp [MetaCf.routed] at hc
  have hcmp : ∀ x y : BucketId × Bytes,
      cfBound c x < cfBound c y ↔ toLex x < toLex y := by
    intro x y
    rw [cfBound, cfBound, List.cons_lt_cons_iff, toLex_lt_iff]
    simp
  have hfull : [c.tag] ≤ cfBound c (b, k) ∧ cfBound c (b, k) < [c.tag + 1] := by
    refine ⟨(cons_le_cons_iff _ _ _ _).mpr (Or.inr ⟨rfl, nil_le _⟩), ?_⟩
    rw [cfBound, List.cons_lt_cons_iff]
    simp only [MetaCf.routed, List.mem_cons, List.not_mem_nil, or_false] at hc
    rcases hc with rfl | rfl | rfl | rfl | rfl <;> exact Or.inl (by decide)
  have hlo : (r.start.map (cfBound c)).getD [c.tag] ≤ cfBound c (b, k)
      ↔ ∀ s, r.start = some s → toLex s ≤ toLex (b, k) := by
    cases hs : r.start with
    | none => simpa using hfull.1
    | some s => simpa [not_lt] using not_congr (hcmp (b, k) s)
  have hhi : cfBound c (b, k) < (r.stop.map (cfBound c)).getD [c.tag + 1]
      ↔ ∀ e, r.stop = some e → toLex (b, k) < toLex e := by
    cases he : r.stop with
    | none => simpa using hfull.2
    | some e => simpa using hcmp (b, k) e
  have hbit : cfBound c (b, k) < nsBitBound c ↔ b < HIER_BUCKET_BIT := by
    have h := be64_append_lt_iff b HIER_BUCKET_BIT k []
    rw [List.append_nil] at h
    rw [nsBitBound, cfBound, List.cons_lt_cons_iff]
    simp [h, List.not_lt_nil]
  rw [scans_iff hne, contains_flatKey hc, Bool.and_eq_true, List.append_nil, containsCoord_iff,
    hkey, hlo, hhi, hbit, ownsCf, decide_eq_true_eq]
  tauto

end PartitionRange

/-- **Nothing is missed**: every key of a family with references is scanned. -/
theorem Cover.scanned {rs : List PartitionRange} (h : Cover rs) {c : MetaCf} {key : Bytes}
    (hc : c = .Meta ∨ c = .Fs ∨ c = .MetaSeg ∨ c = .Upload) (hkey : key.head? = some c.tag) :
    ∃ r ∈ rs, r.scans c key := by
  have hne : c ≠ .Ttl := by rcases hc with rfl | rfl | rfl | rfl <;> decide
  induction h with
  | full =>
    obtain ⟨t, rfl⟩ : ∃ t, key = c.tag :: t := by
      cases key with
      | nil => cases hkey
      | cons a t => exact ⟨t, by rw [Option.some.inj hkey]⟩
    have hlo : [c.tag] ≤ c.tag :: t := (cons_le_cons_iff _ _ _ _).mpr (Or.inr ⟨rfl, nil_le t⟩)
    have hhi : c.tag :: t < [c.tag + 1] := by
      rw [List.cons_lt_cons_iff]
      rcases hc with rfl | rfl | rfl | rfl <;> exact Or.inl (by decide)
    -- the primary families belong to one namespace, the shared ones are divided
    by_cases hflat : c = .Meta ∨ c ≠ .Fs ∧ c.tag :: t < PartitionRange.nsBitBound c
    · refine ⟨.full .Flat, by simp, (PartitionRange.scans_iff hne _).mpr ⟨?_, hlo, hhi, ?_⟩⟩
      · rcases hc with rfl | rfl | rfl | rfl <;> simp_all [PartitionRange.exportedCfs,
          PartitionRange.full]
      · intro hshared
        rcases hflat with rfl | ⟨-, hlt⟩
        · cases hshared
        · simpa [PartitionRange.full] using hlt
    · refine ⟨.full .Hier, by simp, (PartitionRange.scans_iff hne _).mpr ⟨?_, hlo, hhi, ?_⟩⟩
      · rcases hc with rfl | rfl | rfl | rfl <;> simp_all [PartitionRange.exportedCfs,
          PartitionRange.full]
      · intro hshared
        have hfs : c ≠ .Fs := by
          rintro rfl
          cases hshared
        simpa [PartitionRange.full] using fun hlt => hflat (Or.inr ⟨hfs, hlt⟩)
  | @split rs _ _ left right at_ h hsplit ih =>
    obtain ⟨r', hr', hscan⟩ := ih
    rcases List.mem_append.mp hr' with hmem | hmem
    · exact ⟨r', by simp [hmem], hscan⟩
    · rcases List.mem_cons.mp hmem with rfl | hmem
      · rcases PartitionRange.scans_split hsplit hne hscan with hl | hr
        · exact ⟨left, by simp, hl⟩
        · exact ⟨right, by simp, hr⟩
      · exact ⟨r', by simp [hmem], hscan⟩

/-! ## Exactness -/

/-- A value of a family with references holds those of its record. -/
lemma referenced_iff {store : MetaStore} (h : Shaped store) {blob : UInt64} :
    Referenced store blob ↔ ∃ c key v,
      (c = .Meta ∨ c = .Fs ∨ c = .MetaSeg ∨ c = .Upload) ∧ store.get c key = some v
        ∧ ∃ s ∈ extract c v, blob ∈ s.blobIds := by
  constructor
  · rintro (⟨hget, hc, hs, hb⟩ | ⟨hget, hc, hs, hb⟩ | ⟨hget, hs, hb⟩ | ⟨hget, hs, hb⟩)
    · exact ⟨.Meta, _, _, by simp, hget, _,
        by simpa [extract, MetaValue.head?, hc, ContentHead.intoSlices] using hs, hb⟩
    · exact ⟨.Fs, _, _, by simp, hget, _,
        by simpa [extract, MetaValue.fs?, hc, ContentHead.intoSlices] using hs, hb⟩
    · exact ⟨.MetaSeg, _, _, by simp, hget, _, by simpa [extract, MetaValue.segment?] using hs, hb⟩
    · exact ⟨.Upload, _, _, by simp, hget, _, by simpa [extract, MetaValue.part?] using hs, hb⟩
  · rintro ⟨c, key, v, hc, hget, s, hs, hb⟩
    have hv := (h c key v (by rcases hc with rfl | rfl | rfl | rfl <;> decide) hget).2
    rcases hc with rfl | rfl | rfl | rfl
    · cases v with
      | Head o =>
        cases hcontent : o.content with
        | Inline bytes =>
          simp [extract, MetaValue.head?, hcontent, ContentHead.intoSlices] at hs
        | Slices slices =>
          exact .head hget hcontent
            (by simpa [extract, MetaValue.head?, hcontent, ContentHead.intoSlices] using hs) hb
      | _ => simp [MetaCf.holds] at hv
    · cases v with
      | Fs record =>
        cases record with
        | File f =>
          cases hcontent : f.content with
          | Inline bytes =>
            simp [extract, MetaValue.fs?, hcontent, ContentHead.intoSlices] at hs
          | Slices slices =>
            exact .file hget hcontent
              (by simpa [extract, MetaValue.fs?, hcontent, ContentHead.intoSlices] using hs) hb
        | Dir d => simp [extract, MetaValue.fs?] at hs
        | Sentinel d => simp [extract, MetaValue.fs?] at hs
      | _ => simp [MetaCf.holds] at hv
    · cases v with
      | Segment seg => exact .segment hget (by simpa [extract, MetaValue.segment?] using hs) hb
      | _ => simp [MetaCf.holds] at hv
    · cases v with
      | Part p => exact .part hget (by simpa [extract, MetaValue.part?] using hs) hb
      | Session u => simp [extract, MetaValue.part?] at hs
      | _ => simp [MetaCf.holds] at hv

/-- **The keep set is exact.**  In every store that ops of both namespaces reach, and for every
family of ranges that splits make of the two full ones, the exports of the family together hold
exactly the blob ids the store references. -/
theorem export_references_exact (blake3 : Bytes → BitVec 256) (store : MetaStore)
    (hstore : Shaped store) (ops : List NamespaceOp) (rs : List PartitionRange) (hcover : Cover rs)
    (blob : UInt64) :
    (∃ r ∈ rs, blob ∈ exportReferences (run (MetaStore.perform blake3) store ops) r)
      ↔ Referenced (run (MetaStore.perform blake3) store ops) blob := by
  have hshaped := hstore.run blake3 ops
  rw [referenced_iff hshaped]
  constructor
  · rintro ⟨r, -, hmem⟩
    obtain ⟨c, key, v, ⟨hdelq, httl⟩, ⟨hc, -⟩, hget, hs⟩ := mem_exportReferences.mp hmem
    refine ⟨c, key, v, ?_, hget, hs⟩
    cases hns : r.ns with
    | Flat =>
      simp only [hns, PartitionRange.exportedCfs, List.mem_cons, List.not_mem_nil, or_false] at hc
      tauto
    | Hier =>
      simp only [hns, PartitionRange.exportedCfs, List.mem_cons, List.not_mem_nil, or_false] at hc
      tauto
  · rintro ⟨c, key, v, hc, hget, hs⟩
    have hne : c ≠ .Applied ∧ c ≠ .Delq ∧ c ≠ .Ttl := by
      rcases hc with rfl | rfl | rfl | rfl <;> decide
    obtain ⟨r, hr, hscan⟩ := hcover.scanned hc (hshaped c key v hne.1 hget).1
    exact ⟨r, hr, mem_exportReferences.mpr ⟨c, key, v, hne.2, hscan, hget, hs⟩⟩

/-- The head of an object whose content is the blob 7. -/
def demoHead : ObjectHead :=
  { size := 0, etag := 0, mtime := 0, storage := .Standard, segCount := 0
    content := .Slices [⟨0, [7], 0⟩], http := HttpMeta.default }

/-- After a split at `m`, the left half of the flat range exports the blob of `a`. -/
theorem export_references_exact_demo :
    let store := run (MetaStore.perform fun _ => 0) KvStore.empty [.Flat (.Put 1 [0x61] demoHead 0) 0]
    Referenced store 7
      ∧ ∃ r ∈ [⟨.Flat, none, some (1, [0x6d])⟩, ⟨.Flat, some (1, [0x6d]), none⟩, .full .Hier],
        7 ∈ exportReferences store r := by
  have hget : (run (MetaStore.perform fun _ => 0) KvStore.empty
      [.Flat (.Put 1 [0x61] demoHead 0) 0]).get .Meta (flatKey .Meta 1 [0x61] [])
        = some (.Head demoHead) := by decide +kernel
  have href : Referenced (run (MetaStore.perform fun _ => 0) KvStore.empty
      [.Flat (.Put 1 [0x61] demoHead 0) 0]) 7 :=
    .head hget rfl (List.mem_singleton_self _) (List.mem_singleton_self _)
  have hcover : Cover [⟨.Flat, none, some (1, [0x6d])⟩, ⟨.Flat, some (1, [0x6d]), none⟩,
      .full .Hier] := .split [] (1, [0x6d]) .full rfl
  exact ⟨href, (export_references_exact (fun _ => 0) KvStore.empty Shaped.empty _ _ hcover 7).mpr href⟩

end Epoch
