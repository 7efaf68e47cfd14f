import Epoch.Meta.GcExport

/-!
# Byte bounds against membership (`partition/mod.rs`)

`key_ranges` gives an interval of byte strings per column family, `contains` decodes a key and
compares its coordinate.  For a key whose bucket is on the namespace's side of the bucket ids the
two agree in every family but `ttl`, whose keys have the expiry time before the routing key.  There
the start bound still has the routing key of the interval's start, and the end bound leaves out the
whole bucket of its end, so both can leave out keys of the partition (`early_expiry_left_out`).
`key_ranges_cover_iff` says for which intervals they do not.
-/

namespace Epoch

/-- `tag | bucket | expire_ts | routing key`. -/
def ttlKey (b : BucketId) (expireTs : UInt64) (k : Bytes) : Bytes :=
  MetaCf.Ttl.tag :: (be64 b ++ (be64 expireTs ++ k))

/-! ## Keys with a coordinate -/

lemma exists_be64_append {t : Bytes} (h : ¬ t.length < 8) :
    t = be64 (UInt64.ofNat (beNat (t.take 8))) ++ t.drop 8 := by
  obtain ⟨x, hx⟩ := exists_be64 (t := t.take 8) (by rw [List.length_take]; omega)
  rw [← hx, beNat_be64, hx, List.take_append_drop]

/-- A key that has a coordinate is the encoding of it, with an expiry time in `ttl`. -/
lemma eq_of_routingKey {c : MetaCf} {key k : Bytes} {b : BucketId}
    (htag : key.head? = some c.tag) (h : routingKey key = some (b, k)) :
    (c ∈ MetaCf.routed ∧ key = flatKey c b k []) ∨ (c = .Ttl ∧ ∃ ts, key = ttlKey b ts k) := by
  cases key with
  | nil => cases htag
  | cons tag rest =>
    obtain rfl : tag = c.tag := Option.some.inj htag
    simp only [routingKey] at h
    split_ifs at h with hlen hrouted httl hshort
    · obtain ⟨rfl, rfl⟩ := Prod.mk.inj (Option.some.inj h)
      refine Or.inl ⟨?_, ?_⟩
      · cases c <;> first | decide | exact absurd hrouted (by decide)
      · rw [flatKey, List.append_nil, ← exists_be64_append hlen]
    · obtain ⟨rfl, rfl⟩ := Prod.mk.inj (Option.some.inj h)
      refine Or.inr ⟨?_, UInt64.ofNat (beNat ((rest.drop 8).take 8)), ?_⟩
      · cases c <;> first | rfl | exact absurd httl (by decide)
      · rw [ttlKey, ← exists_be64_append hshort, ← exists_be64_append hlen, httl]
        rfl

lemma routingKey_ttlKey (b : BucketId) (ts : UInt64) (k : Bytes) :
    routingKey (ttlKey b ts k) = some (b, k) := by
  have htake : (be64 b ++ (be64 ts ++ k)).take 8 = be64 b := by
    rw [List.take_append_of_le_length (by simp), List.take_of_length_le (by simp)]
  have hdrop : (be64 b ++ (be64 ts ++ k)).drop 8 = be64 ts ++ k := by
    rw [List.drop_append_of_le_length (by simp), List.drop_of_length_le (by simp), List.nil_append]
  have hskip : (be64 ts ++ k).drop 8 = k := by
    rw [List.drop_append_of_le_length (by simp), List.drop_of_length_le (by simp), List.nil_append]
  simp [ttlKey, routingKey, htake, hdrop, hskip, beNat_be64, MetaCf.tag]

namespace PartitionRange

variable {r : PartitionRange}

/-- The bucket carries the namespace's bit. -/
def sided (r : PartitionRange) (b : BucketId) : Prop := r.ns = .Flat ↔ b < HIER_BUCKET_BIT

instance (r : PartitionRange) (b : BucketId) : Decidable (r.sided b) :=
  inferInstanceAs (Decidable (_ ↔ _))

instance (r : PartitionRange) (c : MetaCf) (key : Bytes) : Decidable (r.scans c key) :=
  inferInstanceAs (Decidable (_ ∧ _ ∧ _))

lemma contains_ttlKey (b : BucketId) (ts : UInt64) (k : Bytes) :
    r.contains (ttlKey b ts k) = r.containsCoord b k := by
  have hown : (MetaCf.Ttl.tag = r.ns.primaryCf.tag || r.ownsSharedCf MetaCf.Ttl.tag) = true := by
    rw [tag_eq_primary_or_ownsSharedCf, ownsCf]
    cases r.ns <;> decide
  have hr := routingKey_ttlKey b ts k
  rw [ttlKey] at hr ⊢
  simp only [contains, hr, hown, if_true]

/-- The bounds of the `ttl` family: the start compares the expiry time with the routing key of the
interval's start, the end compares buckets. -/
lemma scans_ttlKey (b : BucketId) (ts : UInt64) (k : Bytes) :
    r.scans .Ttl (ttlKey b ts k)
      ↔ (∀ s ∈ r.start, s.1 < b ∨ s.1 = b ∧ s.2 ≤ be64 ts ++ k)
        ∧ (∀ e ∈ r.stop, b < e.1) ∧ r.sided b := by
  have hmem : MetaCf.Ttl ∈ exportedCfs r.ns := by cases r.ns <;> decide
  have hlow : (r.start.map (cfBound .Ttl)).getD [MetaCf.Ttl.tag] ≤ ttlKey b ts k
      ↔ ∀ s ∈ r.start, s.1 < b ∨ s.1 = b ∧ s.2 ≤ be64 ts ++ k := by
    cases r.start with
    | none => simpa [ttlKey] using (cons_le_cons_iff _ _ _ _).mpr (Or.inr ⟨rfl, nil_le _⟩)
    | some s =>
      have hcmp := be64_append_lt_iff b s.1 (be64 ts ++ k) s.2
      simp only [Option.map_some, Option.getD_some, Option.mem_some_iff, forall_eq', ← not_lt]
      rw [cfBound, ttlKey, List.cons_lt_cons_iff, hcmp]
      rcases lt_trichotomy s.1 b with h | h | h
      · simp [h, h.ne', h.not_gt]
      · simp [h]
      · simp [h, h.ne', h.not_gt]
  have hbucket : ∀ x : BucketId, ttlKey b ts k < MetaCf.Ttl.tag :: be64 x ↔ b < x := by
    intro x
    have h := be64_append_lt_iff b x (be64 ts ++ k) []
    rw [List.append_nil] at h
    rw [ttlKey, List.cons_lt_cons_iff, h]
    simp [List.not_lt_nil]
  have hhigh : ttlKey b ts k < (r.stop.map (endBound .Ttl)).getD [MetaCf.Ttl.tag + 1]
      ↔ ∀ e ∈ r.stop, b < e.1 := by
    cases r.stop with
    | none => simpa [ttlKey] using List.cons_lt_cons_iff.mpr (Or.inl (by decide))
    | some e => simpa [endBound] using hbucket e.1
  rw [scans_iff_bounds, hlow, hhigh, nsBitBound, hbucket]
  exact ⟨fun h => ⟨h.2.1, h.2.2.1, h.2.2.2 rfl⟩, fun h => ⟨hmem, h.1, h.2.1, fun _ => h.2.2⟩⟩

/-! ## The bounds that cover their interval -/

lemma zeros_le_append {m : ℕ} {k : Bytes} (p : Bytes) (h : List.replicate m 0 ≤ k) :
    List.replicate m (0 : UInt8) ≤ p ++ k := by
  induction p generalizing m with
  | nil => exact h
  | cons a p ih =>
    cases m with
    | zero => exact nil_le _
    | succ m =>
      rw [List.replicate_succ, List.cons_append, cons_le_cons_iff]
      have hshort : List.replicate m (0 : UInt8) ≤ k := by
        refine le_trans ?_ h
        rw [List.replicate_succ', ← List.append_nil (List.replicate m 0), List.append_assoc,
          append_le_append_left_iff]
        exact nil_le _
      rcases eq_or_ne a 0 with rfl | ha
      · exact Or.inr ⟨rfl, ih hshort⟩
      · exact Or.inl (UInt8.pos_iff_ne_zero.mpr ha)

/-- With the expiry time 0 a routing key sorts before itself, unless it is all zeros. -/
lemma zeros_append_lt {k : Bytes} (n : ℕ) (h : ∃ a ∈ k, a ≠ 0) :
    List.replicate (n + 1) (0 : UInt8) ++ k < k := by
  induction k with
  | nil => simp at h
  | cons a k ih =>
    rcases eq_or_ne a 0 with rfl | ha
    · have htail : ∃ a ∈ k, a ≠ 0 := by simpa using h
      have hshift : List.replicate (n + 1) (0 : UInt8) ++ 0 :: k
          = 0 :: (List.replicate (n + 1) 0 ++ k) := by
        rw [List.append_cons, ← List.replicate_succ', List.replicate_succ, List.cons_append]
      rw [hshift, List.cons_lt_cons_iff]
      exact Or.inr ⟨rfl, ih htail⟩
    · rw [List.replicate_succ, List.cons_append, List.cons_lt_cons_iff]
      exact Or.inl (UInt8.pos_iff_ne_zero.mpr ha)

/-- The interval is empty, or it starts and ends where the `ttl` family can be cut: at zeros, and at
the start of a bucket.  A bound in a bucket of the other namespace cuts nothing. -/
structure CutsTtl (r : PartitionRange) : Prop where
  start : ∀ s ∈ r.start, r.sided s.1 → (∃ e ∈ r.stop, toLex e ≤ toLex s) ∨ ∀ a ∈ s.2, a = 0
  stop : ∀ e ∈ r.stop, r.sided e.1 → (∃ s ∈ r.start, toLex e ≤ toLex s) ∨ e.2 = []

/-- Byte bounds cover membership, and outside of `ttl` are the same. -/
def BoundsCover (r : PartitionRange) : Prop :=
  ∀ c ∈ exportedCfs r.ns, ∀ key b k, key.head? = some c.tag → routingKey key = some (b, k) →
    r.sided b → (r.contains key = true → r.scans c key)
      ∧ (c ≠ .Ttl → r.scans c key → r.contains key = true)

lemma CutsTtl.scans (h : CutsTtl r) {b : BucketId} (hside : r.sided b) (ts : UInt64) {k : Bytes}
    (hin : r.containsCoord b k = true) : r.scans .Ttl (ttlKey b ts k) := by
  rw [containsCoord_iff] at hin
  rw [scans_ttlKey]
  refine ⟨fun s hs => ?_, fun e he => ?_, hside⟩
  · have hle := hin.1 s hs
    rcases (Prod.Lex.toLex_le_toLex).mp hle with hlt | ⟨heq, hk⟩
    · exact Or.inl hlt
    · refine Or.inr ⟨heq, ?_⟩
      have heq : s.1 = b := heq
      rcases h.start s hs (heq ▸ hside) with ⟨e, he, hes⟩ | hzero
      · exact absurd (hin.2 e he) (not_lt.mpr (hes.trans hle))
      · rw [List.eq_replicate_of_mem hzero] at hk ⊢
        exact zeros_le_append (be64 ts) hk
  · have hlt := hin.2 e he
    rcases (Prod.Lex.toLex_lt_toLex).mp hlt with hlt' | ⟨heq, hk⟩
    · exact hlt'
    · have heq : b = e.1 := heq
      rcases h.stop e he (heq ▸ hside) with ⟨s, hs, hes⟩ | hnil
      · exact absurd hlt (not_lt.mpr (hes.trans (hin.1 s hs)))
      · rw [hnil] at hk
        exact absurd hk (List.not_lt_nil _)

lemma BoundsCover.ttl (h : BoundsCover r) {b : BucketId} (hside : r.sided b) (ts : UInt64) {k : Bytes}
    (hin : r.containsCoord b k = true) : r.scans .Ttl (ttlKey b ts k) := by
  have hmem : MetaCf.Ttl ∈ exportedCfs r.ns := by cases r.ns <;> decide
  refine (h .Ttl hmem (ttlKey b ts k) b k rfl (routingKey_ttlKey b ts k) hside).1 ?_
  rw [contains_ttlKey, hin]

lemma BoundsCover.cutsTtl (h : BoundsCover r) : CutsTtl r := by
  constructor
  · rintro ⟨b, k⟩ hs hside
    by_contra hnot
    push Not at hnot
    obtain ⟨hstop, hzero⟩ := hnot
    have hin : r.containsCoord b k = true := by
      rw [containsCoord_iff]
      refine ⟨fun s hs' => ?_, hstop⟩
      rw [Option.some.inj (hs.symm.trans hs')]
    -- the interval's own start, with the expiry time 0
    rcases (scans_ttlKey b 0 k).mp (h.ttl hside 0 hin) |>.1 _ hs with hlt | ⟨-, hle⟩
    · exact absurd hlt (lt_irrefl _)
    · exact absurd (zeros_append_lt 7 hzero) (not_lt.mpr hle)
  · rintro ⟨b, k⟩ he hside
    by_contra hnot
    push Not at hnot
    obtain ⟨hstart, hne⟩ := hnot
    -- the first coordinate of the interval in the bucket where it ends
    obtain ⟨k', hfirst, hlt⟩ : ∃ k', (∀ s ∈ r.start, toLex s ≤ toLex (b, k')) ∧ k' < k := by
      have hnil : ([] : Bytes) < k := lt_of_le_of_ne (nil_le k) (Ne.symm hne)
      cases hs : r.start with
      | none => exact ⟨[], nofun, hnil⟩
      | some s =>
        rcases (Prod.Lex.toLex_lt_toLex).mp (hstart s hs) with hlt | ⟨heq, hlt⟩
        · refine ⟨[], fun s' hs' => ?_, hnil⟩
          rw [← Option.some.inj hs']
          exact (Prod.Lex.toLex_le_toLex).mpr (Or.inl hlt)
        · refine ⟨s.2, fun s' hs' => ?_, hlt⟩
          rw [← Option.some.inj hs']
          exact (Prod.Lex.toLex_le_toLex).mpr (Or.inr ⟨heq, le_rfl⟩)
    have hin : r.containsCoord b k' = true := by
      refine containsCoord_iff.mpr ⟨hfirst, fun e he' => ?_⟩
      rw [← Option.some.inj (he.symm.trans he'), Prod.Lex.toLex_lt_toLex]
      exact Or.inr ⟨rfl, hlt⟩
    exact absurd ((scans_ttlKey b 0 k').mp (h.ttl hside 0 hin) |>.2.1 _ he) (lt_irrefl _)

/-- **Byte bounds cover membership** exactly for the intervals that cut the `ttl` family. -/
theorem key_ranges_cover_iff (r : PartitionRange) : r.BoundsCover ↔ r.CutsTtl := by
  refine ⟨BoundsCover.cutsTtl, fun h c hc key b k htag hkey hside => ?_⟩
  rcases eq_of_routingKey htag hkey with ⟨hrouted, rfl⟩ | ⟨rfl, ts, rfl⟩
  · have hiff := scans_flatKey (r := r) hrouted b k
    exact ⟨fun hin => hiff.mpr ⟨hin, fun _ => hside⟩, fun _ hscan => (hiff.mp hscan).1⟩
  · refine ⟨fun hin => h.scans hside ts ?_, fun hne => absurd rfl hne⟩
    rwa [contains_ttlKey] at hin

/-- A partition that a split at object `m` of bucket 1 made, and an entry of object `z` that expires
at 0. -/
theorem early_expiry_left_out :
    let r : PartitionRange := ⟨.Flat, some (1, [0x6d]), none⟩
    r.contains (ttlKey 1 0 [0x7a]) = true ∧ ¬ r.scans .Ttl (ttlKey 1 0 [0x7a]) ∧ ¬ r.BoundsCover := by
  intro r
  have hin : r.contains (ttlKey 1 0 [0x7a]) = true := by decide +kernel
  have hout : ¬ r.scans .Ttl (ttlKey 1 0 [0x7a]) := by decide +kernel
  have hside : r.sided 1 := by decide +kernel
  exact ⟨hin, hout, fun h => hout (h.ttl hside 0 (contains_ttlKey (r := r) 1 0 [0x7a] ▸ hin))⟩

end PartitionRange

end Epoch
