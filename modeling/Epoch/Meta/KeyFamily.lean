import Epoch.Meta.Flat.Ops

/-!
# Key families and split points

An object has a head key and, behind it, segments, upload parts and queue entries.  All of them
start with the object's coordinate, and the suffix that tells them apart counts as part of the
routing key when `contains` places them.  So a family stays in one partition as long as no boundary
falls among the extensions of its coordinate, and `contains_family_iff` says exactly when that is.

Boundaries are coordinates of other objects, and one object's key may well extend another's: after
a split at `a\0` the head of `a` is on the left and its segments are on the right
(`split_separates_family`).
-/

namespace Epoch

/-! ## Picking a split point (`service.rs`) -/

def SPLIT_SCAN_LIMIT : ℕ := 4096

namespace PartitionRange

/-- `primary_scan_bounds`. -/
def primaryScanBounds (r : PartitionRange) : MetaCf × Bytes × Bytes :=
  let cf := r.ns.primaryCf
  (cf, (r.start.map (cfBound cf)).getD [cf.tag], (r.stop.map (cfBound cf)).getD [cf.tag + 1])

/-- `pick_split_point`: the first usable coordinate from the median key on. -/
def pickSplitPoint (store : MetaStore) (r : PartitionRange) : Option (BucketId × Bytes) :=
  let (cf, start, stop) := r.primaryScanBounds
  let keys := store.scan cf start stop SPLIT_SCAN_LIMIT
  if keys.length < 2 then none
  else (keys.drop (keys.length / 2)).findSome? fun e =>
    (routingKey e.1).bind fun at_ => if (r.split at_).isSome then some at_ else none

/-- The ranges that splits reach, each at a point picked in the store of its moment. -/
inductive Reached : PartitionRange → Prop
  | full (ns : Namespace) : Reached (full ns)
  | left {r left right : PartitionRange} (store : MetaStore) (at_ : BucketId × Bytes)
      (h : Reached r) (hpick : r.pickSplitPoint store = some at_)
      (hsplit : r.split at_ = some (left, right)) : Reached left
  | right {r left right : PartitionRange} (store : MetaStore) (at_ : BucketId × Bytes)
      (h : Reached r) (hpick : r.pickSplitPoint store = some at_)
      (hsplit : r.split at_ = some (left, right)) : Reached right

/-- A split leaves something between the bounds of both halves. -/
lemma Reached.start_lt_stop {r : PartitionRange} (h : Reached r) {s e : BucketId × Bytes}
    (hs : r.start = some s) (he : r.stop = some e) : toLex s < toLex e := by
  cases h with
  | full ns => cases hs
  | left store at_ h hpick hsplit =>
    obtain ⟨hin, hne, rfl, -⟩ := split_eq_some hsplit
    obtain rfl := Option.some.inj he
    refine lt_of_le_of_ne ((containsCoord_iff.mp hin).1 s hs) fun heq => hne ?_
    rw [hs]
    exact congrArg some (toLex.injective heq)
  | right store at_ h hpick hsplit =>
    obtain ⟨hin, -, -, rfl⟩ := split_eq_some hsplit
    obtain rfl := Option.some.inj hs
    exact (containsCoord_iff.mp hin).2 e he

/-! ## Boundaries behind a coordinate -/

/-- The bytes by which a boundary extends the coordinate `(b, k)`, if it does. -/
def beyond (b : BucketId) (k : Bytes) : Option (BucketId × Bytes) → Option Bytes
  | none => none
  | some c => if c.1 = b ∧ k <+: c.2 ∧ k ≠ c.2 then some (c.2.drop k.length) else none

lemma beyond_eq_some {b : BucketId} {k u : Bytes} {c : BucketId × Bytes}
    (h : beyond b k (some c) = some u) : c = (b, k ++ u) ∧ u ≠ [] := by
  simp only [beyond] at h
  split_ifs at h with hc
  obtain ⟨rfl, ⟨v, hv⟩, hne⟩ := hc
  obtain ⟨c₁, c₂⟩ := c
  simp only at hv hne
  subst hv
  obtain rfl : v = u := by simpa using h
  exact ⟨rfl, fun hv => hne (by simp [hv])⟩

/-- A boundary behind the coordinate compares by what is left of it. -/
lemma lt_beyond_iff (b : BucketId) (k t u : Bytes) :
    toLex (b, k ++ t) < toLex (b, k ++ u) ↔ t < u := by
  rw [toLex_lt_iff, append_lt_append_left_iff, append_lt_append_left_iff]

/-- Any other boundary does not tell the coordinate from its extensions. -/
lemma lt_iff_of_beyond_eq_none {b : BucketId} {k : Bytes} {c : BucketId × Bytes}
    (h : beyond b k (some c) = none) (t : Bytes) :
    toLex (b, k ++ t) < toLex c ↔ toLex (b, k) < toLex c := by
  obtain ⟨b', k'⟩ := c
  have hle : toLex (b, k) ≤ toLex (b, k ++ t) := by
    rw [← not_lt]
    nth_rewrite 2 [← List.append_nil k]
    rw [lt_beyond_iff]
    exact List.not_lt_nil t
  refine ⟨lt_of_le_of_lt hle, fun hlt => ?_⟩
  rw [Prod.Lex.toLex_lt_toLex] at hlt ⊢
  rcases hlt with hlt | ⟨hb, hlt⟩
  · exact Or.inl hlt
  · refine Or.inr ⟨hb, append_lt_of_not_prefix t hlt fun hp => ?_⟩
    simp only at hb hlt hp
    have hne : k ≠ k' := ne_of_lt hlt
    simp [beyond, hb, hp, hne] at h

/-! ## The family -/

/-- A suffix is a segment number, a sequence and segment number, or an upload id and part number. -/
def isSuffix (t : Bytes) : Prop := t.length = 4 ∨ t.length = 12 ∨ t.length = 20

/-- The greatest suffix. -/
def maxSuffix : Bytes := List.replicate 20 0xFF

lemma maxSuffix_lt_iff (u : Bytes) : maxSuffix < u ↔ ∀ t, isSuffix t → t < u := by
  constructor
  · intro h t ht
    have hlen : t.length ≤ 20 := by rcases ht with ht | ht | ht <;> omega
    exact lt_of_le_of_lt (le_replicate_ff hlen) h
  · intro h
    exact h maxSuffix (Or.inr (Or.inr rfl))

/-- The condition, by which bounds of the range lie behind the coordinate: a single one lies behind
all suffixes as well (or both halves of the family lie before the range), and between two there is
no suffix. -/
def staysTogether (r : PartitionRange) (b : BucketId) (k : Bytes) : Prop :=
  match beyond b k r.start, beyond b k r.stop with
  | none, none => True
  | none, some w => (∀ s ∈ r.start, toLex s ≤ toLex (b, k)) → maxSuffix < w
  | some u, none => maxSuffix < u
  | some u, some w => ∀ t, isSuffix t → ¬ (u ≤ t ∧ t < w)

/-- **A family stays together exactly under this condition.** -/
lemma agrees_iff {r : PartitionRange} (hr : ∀ s ∈ r.start, ∀ e ∈ r.stop, toLex s < toLex e)
    (b : BucketId) (k : Bytes) :
    (∀ t, isSuffix t → r.containsCoord b (k ++ t) = r.containsCoord b k)
      ↔ r.staysTogether b k := by
  -- the test of an extension, bound by bound
  have hnil : ∀ u : Bytes, u ≠ [] → toLex (b, k) < toLex (b, k ++ u) := by
    intro u hu
    nth_rewrite 1 [← List.append_nil k]
    rw [lt_beyond_iff]
    exact lt_of_le_of_ne (nil_le u) hu.symm
  have hbool : ∀ t, r.containsCoord b (k ++ t) = r.containsCoord b k
      ↔ (r.containsCoord b (k ++ t) = true ↔ r.containsCoord b k = true) := fun _ =>
    Bool.eq_iff_iff
  simp only [hbool, containsCoord_iff]
  unfold staysTogether
  cases hu : beyond b k r.start with
  | none =>
    have hstart : ∀ t, (∀ s, r.start = some s → toLex s ≤ toLex (b, k ++ t))
        ↔ ∀ s, r.start = some s → toLex s ≤ toLex (b, k) := by
      intro t
      refine forall_congr' fun s => imp_congr_right fun hs => ?_
      rw [hs] at hu
      rw [← not_lt, ← not_lt, lt_iff_of_beyond_eq_none hu]
    simp only [hstart]
    cases hw : beyond b k r.stop with
    | none =>
      have hstop : ∀ t, (∀ e, r.stop = some e → toLex (b, k ++ t) < toLex e)
          ↔ ∀ e, r.stop = some e → toLex (b, k) < toLex e := by
        intro t
        refine forall_congr' fun e => imp_congr_right fun he => ?_
        rw [he] at hw
        exact lt_iff_of_beyond_eq_none hw t
      simp only [hstop, implies_true]
    | some w =>
      cases he : r.stop with
      | none => simp [he, beyond] at hw
      | some e =>
        rw [he] at hw
        obtain ⟨rfl, hne⟩ := beyond_eq_some hw
        simp only [Option.some.injEq, forall_eq', lt_beyond_iff, hnil w hne, and_true,
          Option.mem_def, maxSuffix_lt_iff]
        constructor
        · intro h hin t ht
          exact ((h t ht).mpr hin).2
        · intro h t ht
          exact ⟨And.left, fun hin => ⟨hin, h hin t ht⟩⟩
  | some u =>
    cases hs : r.start with
    | none => simp [hs, beyond] at hu
    | some s =>
      rw [hs] at hu
      obtain ⟨rfl, hne⟩ := beyond_eq_some hu
      have hle : ∀ t, toLex (b, k ++ u) ≤ toLex (b, k ++ t) ↔ u ≤ t := fun t => by
        rw [← not_lt, lt_beyond_iff, not_lt]
      have hout : ¬ toLex (b, k ++ u) ≤ toLex (b, k) := not_le.mpr (hnil u hne)
      simp only [Option.some.injEq, forall_eq', hle, hout, false_and, iff_false]
      cases hw : beyond b k r.stop with
      | none =>
        have hstop : ∀ t e, r.stop = some e → toLex (b, k ++ t) < toLex e := by
          intro t e he
          rw [he] at hw
          rw [lt_iff_of_beyond_eq_none hw]
          exact (hnil u hne).trans (hr _ hs e he)
        refine (forall₂_congr fun t _ => ?_).trans (maxSuffix_lt_iff u).symm
        rw [and_iff_left (hstop t), not_le]
      | some w =>
        cases he : r.stop with
        | none => simp [he, beyond] at hw
        | some e =>
          rw [he] at hw
          obtain ⟨rfl, -⟩ := beyond_eq_some hw
          simp only [Option.some.injEq, forall_eq', lt_beyond_iff]

/-- **When an object's keys are in one partition.**  In every range that splits reach, `contains`
places the head, the segments, the upload parts and the queue entries of an object as
`contains_coord` places its key, exactly if no bound of the range comes between them. -/
theorem contains_family_iff {r : PartitionRange} (hr : Reached r) (b : BucketId) (k : Bytes) :
    (r.contains (flatKey r.ns.primaryCf b k []) = r.containsCoord b k
        ∧ (∀ segNo, r.contains (segmentKey b k segNo) = r.containsCoord b k)
        ∧ (∀ uploadId partNo, r.contains (Flat.uploadKey b k uploadId partNo) = r.containsCoord b k)
        ∧ ∀ seq segNo, r.contains (delqKey b k seq segNo) = r.containsCoord b k)
      ↔ r.staysTogether b k := by
  rw [← agrees_iff fun s hs e he => hr.start_lt_stop hs he]
  have hhead : r.contains (flatKey r.ns.primaryCf b k []) = r.containsCoord b k := by
    rw [contains_flatKey (by cases r.ns <;> decide), List.append_nil]
    cases hns : r.ns <;> simp [ownsCf, exportedCfs, Namespace.primaryCf, hns]
  have hshared : ∀ {cf}, isSharedCf cf = true → cf ∈ MetaCf.routed → ∀ t,
      r.contains (flatKey cf b k t) = r.containsCoord b (k ++ t) := by
    intro cf hshared hcf t
    rw [contains_flatKey hcf]
    cases cf <;> cases hns : r.ns <;> simp_all [ownsCf, exportedCfs, isSharedCf, MetaCf.routed]
  have hseg : ∀ segNo, r.contains (segmentKey b k segNo) = r.containsCoord b (k ++ be32 segNo) :=
    fun segNo => hshared rfl (by decide) _
  have hupload : ∀ uploadId partNo, r.contains (Flat.uploadKey b k uploadId partNo)
      = r.containsCoord b (k ++ (be128 uploadId ++ be32 partNo)) := fun uploadId partNo =>
    hshared rfl (by decide) _
  have hdelq : ∀ seq segNo, r.contains (delqKey b k seq segNo)
      = r.containsCoord b (k ++ (be64 seq ++ be32 segNo)) := fun seq segNo =>
    hshared rfl (by decide) _
  simp only [hhead, hseg, hupload, hdelq, true_and]
  constructor
  · -- every string of a suffix's length is a suffix
    rintro ⟨h4, h20, h12⟩ t (ht | ht | ht)
    · obtain ⟨segNo, rfl⟩ := exists_be32 ht
      exact h4 segNo
    · obtain ⟨seq, hseq⟩ := exists_be64 (t := t.take 8) (by simp [ht])
      obtain ⟨segNo, hno⟩ := exists_be32 (t := t.drop 8) (by simp [ht])
      have h := h12 seq segNo
      rwa [hseq, hno, List.take_append_drop] at h
    · obtain ⟨uploadId, hid⟩ := exists_be128 (t := t.take 16) (by simp [ht])
      obtain ⟨partNo, hno⟩ := exists_be32 (t := t.drop 16) (by simp [ht])
      have h := h20 uploadId partNo
      rwa [hid, hno, List.take_append_drop] at h
  · intro h
    exact ⟨fun segNo => h _ (Or.inl (by simp)),
      fun uploadId partNo => h _ (Or.inr (Or.inr (by simp))),
      fun seq segNo => h _ (Or.inr (Or.inl (by simp)))⟩

end PartitionRange

/-- A store with two objects in bucket 1. -/
def demoObjects (k k' : Bytes) : MetaStore :=
  ((Flat.apply (fun _ => 0) KvStore.empty (demoPut k 0) 0).toOption.map fun out =>
    let store := KvStore.empty.applyBatch out.ops
    ((Flat.apply (fun _ => 0) store (demoPut k' 0) 1).toOption.map fun out =>
      store.applyBatch out.ops).getD store).getD KvStore.empty

/-- The left half of a split between `a` and `m` holds all keys of `a`. -/
theorem contains_family_demo :
    let r : PartitionRange := ⟨.Flat, none, some (1, [0x6d])⟩
    r.containsCoord 1 [0x61] = true
      ∧ r.contains (flatKey .Meta 1 [0x61] []) = r.containsCoord 1 [0x61]
      ∧ (∀ segNo, r.contains (segmentKey 1 [0x61] segNo) = r.containsCoord 1 [0x61])
      ∧ (∀ uploadId partNo, r.contains (Flat.uploadKey 1 [0x61] uploadId partNo)
        = r.containsCoord 1 [0x61])
      ∧ ∀ seq segNo, r.contains (delqKey 1 [0x61] seq segNo) = r.containsCoord 1 [0x61] := by
  have hr : PartitionRange.Reached ⟨.Flat, none, some (1, [0x6d])⟩ :=
    .left (demoObjects [0x61] [0x6d]) (1, [0x6d]) (.full .Flat) (by decide +kernel) rfl
  exact ⟨by decide, (PartitionRange.contains_family_iff hr 1 [0x61]).mpr trivial⟩

/-- The median of the objects `a` and `a\0` is `a\0`.  After a split there, the head of `a` is in
the left half, and its first segment is not. -/
theorem split_separates_family :
    (PartitionRange.full .Flat).pickSplitPoint (demoObjects [0x61] [0x61, 0]) = some (1, [0x61, 0])
      ∧ (PartitionRange.full .Flat).split (1, [0x61, 0])
        = some (⟨.Flat, none, some (1, [0x61, 0])⟩, ⟨.Flat, some (1, [0x61, 0]), none⟩)
      ∧ (⟨.Flat, none, some (1, [0x61, 0])⟩ : PartitionRange).contains (flatKey .Meta 1 [0x61] [])
        = true
      ∧ (⟨.Flat, none, some (1, [0x61, 0])⟩ : PartitionRange).contains (segmentKey 1 [0x61] 0)
        = false := by
  exact ⟨by decide +kernel, rfl, by decide, by decide⟩

end Epoch
