import Epoch.Meta.Store.Keys

/-!
# Partition ranges (`partition/mod.rs`)

A partition owns a half-open interval of `(bucket, routing key)` coordinates in one namespace.
Three notions of "inside" coexist in the code, and they are not the same.

* `containsCoord`: the coordinate test, over the interval bounds alone.
* `contains`: the test on an encoded key, which parses the coordinate out of the key and so sees
  the suffix as part of the routing key (`contains_flatKey`).
* `keyRanges`: byte bounds per column family, for scans.  They clamp the shared families at the
  namespace bit and bound `ttl` by bucket, so they neither contain nor are contained in the
  previous notion.

A split cuts the interval into two that are disjoint and cover it (`split_containsCoord`).
-/

namespace Epoch

/-- Bucket ids of hierarchical buckets carry this bit (`epoch_proto::consts`). -/
def HIER_BUCKET_BIT : UInt64 := (1 : UInt64) <<< 63

inductive Namespace
  | Flat
  | Hier
deriving DecidableEq, Repr

def Namespace.primaryCf : Namespace → MetaCf
  | Flat => MetaCf.Meta
  | Hier => MetaCf.Fs

/-- A half-open interval of coordinates in one namespace; `none` bounds are infinite. -/
structure PartitionRange where
  ns : Namespace
  start : Option (BucketId × Bytes)
  stop : Option (BucketId × Bytes)
deriving DecidableEq, Repr

namespace PartitionRange

/-- The whole coordinate space of one namespace. -/
def full (ns : Namespace) : PartitionRange := ⟨ns, none, none⟩

def containsCoord (r : PartitionRange) (bucket : BucketId) (routing : Bytes) : Bool :=
  let afterStart := match r.start with
    | none => true
    | some s => decide (toLex s ≤ toLex (bucket, routing))
  let beforeEnd := match r.stop with
    | none => true
    | some e => decide (toLex (bucket, routing) < toLex e)
  afterStart && beforeEnd

/-- The left child `[start, at)` and the right child `[at, end)`; `none` unless `at` lies strictly
inside, so that no child is empty. -/
def split (r : PartitionRange) (at_ : BucketId × Bytes) :
    Option (PartitionRange × PartitionRange) :=
  if r.containsCoord at_.1 at_.2 = false then none
  else if r.start = some at_ then none
  else some (⟨r.ns, r.start, some at_⟩, ⟨r.ns, some at_, r.stop⟩)

/-- The primary family of the other namespace is the only one a partition never owns. -/
def ownsSharedCf (r : PartitionRange) (tag : UInt8) : Bool :=
  let otherPrimary := match r.ns with
    | .Flat => MetaCf.Fs.tag
    | .Hier => MetaCf.Meta.tag
  MetaCf.all.any (fun cf => cf.tag = tag) && tag ≠ otherPrimary

/-- Whether an encoded key belongs to the partition. -/
def contains (r : PartitionRange) (key : Bytes) : Bool :=
  match key with
  | [] => false
  | tag :: _ =>
    if tag = r.ns.primaryCf.tag || r.ownsSharedCf tag then
      match routingKey key with
      | none => false
      | some (bucket, routing) => r.containsCoord bucket routing
    else false

/-- The byte bound `tag | bucket | routing` of a coordinate in one family. -/
def cfBound (cf : MetaCf) (at_ : BucketId × Bytes) : Bytes :=
  cf.tag :: (be64 at_.1 ++ at_.2)

def isSharedCf : MetaCf → Bool
  | .Meta | .Fs => false
  | _ => true

/-- The namespace-bit boundary inside a shared family. -/
def nsBitBound (cf : MetaCf) : Bytes := cf.tag :: be64 HIER_BUCKET_BIT

def exportedCfs : Namespace → List MetaCf
  | .Flat => [.Meta, .MetaSeg, .Upload, .Delq, .Ttl]
  | .Hier => [.Fs, .MetaSeg, .Upload, .Delq, .Ttl]

/-- The bounds of one family in `keyRanges`. -/
def keyRange (r : PartitionRange) (cf : MetaCf) : KeyRange :=
  let start := match r.start with
    | none => [cf.tag]
    | some s => cfBound cf s
  let stop := match r.stop with
    | none => [cf.tag + 1]
    | some e => if cf = .Ttl then cf.tag :: be64 e.1 else cfBound cf e
  if isSharedCf cf then
    match r.ns with
    | .Flat => ⟨cf, start, if nsBitBound cf < stop then nsBitBound cf else stop⟩
    | .Hier => ⟨cf, if start < nsBitBound cf then nsBitBound cf else start, stop⟩
  else ⟨cf, start, stop⟩

/-- The per-family byte bounds of the interval, for snapshot export and clearing. -/
def keyRanges (r : PartitionRange) : List KeyRange := (exportedCfs r.ns).map r.keyRange

@[simp] lemma keyRange_cf (r : PartitionRange) (c : MetaCf) : (r.keyRange c).cf = c := by
  unfold keyRange
  cases isSharedCf c <;> cases r.ns <;> rfl

/-! ## Coordinates -/

variable {r left right : PartitionRange} {at_ : BucketId × Bytes}

lemma containsCoord_iff {b : BucketId} {k : Bytes} :
    r.containsCoord b k = true
      ↔ (∀ s, r.start = some s → toLex s ≤ toLex (b, k))
        ∧ (∀ e, r.stop = some e → toLex (b, k) < toLex e) := by
  unfold containsCoord
  cases r.start <;> cases r.stop <;> simp

@[simp] lemma containsCoord_full (ns : Namespace) (b : BucketId) (k : Bytes) :
    (full ns).containsCoord b k = true := rfl

/-- Coordinates compare as their byte encodings do. -/
lemma toLex_lt_iff (b b' : BucketId) (k k' : Bytes) :
    toLex (b, k) < toLex (b', k') ↔ be64 b ++ k < be64 b' ++ k' := by
  rw [Prod.Lex.toLex_lt_toLex, be64_append_lt_iff]

lemma split_eq_some (h : r.split at_ = some (left, right)) :
    r.containsCoord at_.1 at_.2 = true ∧ r.start ≠ some at_
      ∧ left = ⟨r.ns, r.start, some at_⟩ ∧ right = ⟨r.ns, some at_, r.stop⟩ := by
  unfold split at h
  split at h
  · cases h
  · split at h
    · cases h
    · rename_i h1 h2
      cases h
      exact ⟨by simpa using h1, h2, rfl, rfl⟩

/-- **A split partitions the interval**: a coordinate is in the right child exactly when it is in
the parent at or after the boundary, and in the left child when it is in the parent before it. -/
theorem split_containsCoord (h : r.split at_ = some (left, right)) (b : BucketId) (k : Bytes) :
    (left.containsCoord b k = true ↔ r.containsCoord b k = true ∧ toLex (b, k) < toLex at_)
      ∧ (right.containsCoord b k = true
          ↔ r.containsCoord b k = true ∧ toLex at_ ≤ toLex (b, k)) := by
  obtain ⟨hin, -, rfl, rfl⟩ := split_eq_some h
  rw [containsCoord_iff] at hin
  obtain ⟨hlo, hhi⟩ := hin
  refine ⟨?_, ?_⟩
  · simp only [containsCoord_iff, Option.some.injEq, forall_eq']
    constructor
    · rintro ⟨h1, h2⟩
      exact ⟨⟨h1, fun e he => lt_trans h2 (hhi e he)⟩, h2⟩
    · rintro ⟨⟨h1, -⟩, h2⟩
      exact ⟨h1, h2⟩
  · simp only [containsCoord_iff, Option.some.injEq, forall_eq']
    constructor
    · rintro ⟨h1, h2⟩
      exact ⟨⟨fun s hs => le_trans (hlo s hs) h1, h2⟩, h1⟩
    · rintro ⟨⟨-, h1⟩, h2⟩
      exact ⟨h2, h1⟩

lemma split_ns (h : r.split at_ = some (left, right)) : left.ns = r.ns ∧ right.ns = r.ns := by
  obtain ⟨-, -, rfl, rfl⟩ := split_eq_some h
  exact ⟨rfl, rfl⟩

/-- The interval holds the coordinate and, unless its end lies among them, everything whose routing
key extends it. -/
def ownsFamily (r : PartitionRange) (b : BucketId) (k : Bytes) : Prop :=
  r.containsCoord b k = true ∧ ∀ e ∈ r.stop, ¬ (e.1 = b ∧ k <+: e.2)

instance (r : PartitionRange) (b : BucketId) (k : Bytes) : Decidable (r.ownsFamily b k) := by
  unfold ownsFamily
  cases r.stop with
  | none => exact decidable_of_iff (r.containsCoord b k = true) (by simp)
  | some e =>
    exact decidable_of_iff (r.containsCoord b k = true ∧ ¬ (e.1 = b ∧ k <+: e.2)) (by simp)

/-- **An owned family stays together.** -/
lemma ownsFamily.containsCoord {b : BucketId} {k : Bytes} (h : r.ownsFamily b k) (t : Bytes) :
    r.containsCoord b (k ++ t) = true := by
  obtain ⟨hin, hstop⟩ := h
  rw [containsCoord_iff] at hin ⊢
  refine ⟨fun s hs => le_trans (hin.1 s hs) ?_, fun e he => ?_⟩
  · rw [← not_lt, toLex_lt_iff, append_lt_append_left_iff, not_lt]
    nth_rewrite 1 [← List.append_nil k]
    rw [append_le_append_left_iff]
    exact nil_le t
  · obtain ⟨b', k'⟩ := e
    have hlt := hin.2 _ he
    rw [Prod.Lex.toLex_lt_toLex] at hlt ⊢
    rcases hlt with hlt | ⟨rfl, hlt⟩
    · exact Or.inl hlt
    · exact Or.inr ⟨rfl, append_lt_of_not_prefix t hlt fun hp => hstop _ he ⟨rfl, hp⟩⟩

/-! ## Encoded keys -/

/-- The families a partition of this namespace may own. -/
def ownsCf (r : PartitionRange) (cf : MetaCf) : Bool := cf ∈ exportedCfs r.ns

lemma tag_eq_primary_or_ownsSharedCf (r : PartitionRange) (cf : MetaCf) :
    (decide (cf.tag = r.ns.primaryCf.tag) || r.ownsSharedCf cf.tag) = r.ownsCf cf := by
  cases hns : r.ns <;> cases cf <;> simp [ownsSharedCf, ownsCf, exportedCfs, hns] <;> decide

/-- **Membership of an encoded key** is the coordinate test on its routing key *and suffix*. -/
theorem contains_flatKey {cf : MetaCf} (hcf : cf ∈ MetaCf.routed) (b : BucketId) (k s : Bytes) :
    r.contains (flatKey cf b k s) = (r.ownsCf cf && r.containsCoord b (k ++ s)) := by
  have hr := routingKey_flatKey hcf b k s
  have htag := tag_eq_primary_or_ownsSharedCf r cf
  rw [flatKey] at hr ⊢
  simp only [contains, hr, htag]
  cases r.ownsCf cf <;> simp

end PartitionRange

end Epoch
