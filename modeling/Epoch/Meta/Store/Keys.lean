import Epoch.Lib.Bytes

/-!
# The metadata key layout (`store/keys.rs`)

Every key is `tag | bucket (8 B) | routing key | suffix`, with no delimiter between the routing
key and the suffix.  The routing key is the object key in the flat namespace and
`parent_ino (8 B) | name` in the hierarchical one, so a hierarchical key is a flat key over the
encoded coordinate (`hierKey_eq_flatKey`) and most facts need stating only once.

Two facts decide what the layout can tell apart.

* `flatKey_inj`: with suffixes of one length, the key determines bucket, routing key and suffix.
  Point reads and writes never confuse two objects.
* `flatKey_prefix_iff`: a key lies under the *prefix* of an object exactly when its own routing
  key and suffix together extend that object's key.  Prefix scans do confuse objects: `ab` and
  its segments lie under `a`, and so does segment `0` of `a` under the key `a\0`.
-/

namespace Epoch

abbrev BucketId := UInt64

/-- A column family of the unified metadata layout. -/
inductive MetaCf
  | Meta
  | Fs
  | MetaSeg
  | Upload
  | Delq
  | Ttl
  | Applied
deriving DecidableEq, Repr

namespace MetaCf

/-- The one-byte namespace tag of a key in this family. -/
def tag : MetaCf → UInt8
  | Meta => 0x6f
  | Fs => 0x66
  | MetaSeg => 0x67
  | Upload => 0x75
  | Delq => 0x71
  | Ttl => 0x74
  | Applied => 0xff

/-- All user-data families (everything except `Applied`). -/
def all : List MetaCf := [Meta, Fs, MetaSeg, Upload, Delq, Ttl]

/-- The families whose keys carry the routing key right after the bucket. -/
def routed : List MetaCf := [Meta, Fs, MetaSeg, Upload, Delq]

end MetaCf

def flatKey (cf : MetaCf) (bucket : BucketId) (objectKey suffix : Bytes) : Bytes :=
  cf.tag :: (be64 bucket ++ (objectKey ++ suffix))

def hierKey (cf : MetaCf) (bucket : BucketId) (parentIno : UInt64) (name suffix : Bytes) : Bytes :=
  cf.tag :: (be64 bucket ++ (be64 parentIno ++ (name ++ suffix)))

/-- The hierarchical routing key `parent_ino (u64 BE) | name`. -/
def hierRoutingKey (parentIno : UInt64) (name : Bytes) : Bytes := be64 parentIno ++ name

/-- The `(bucket, routing key)` coordinates of a key; `none` for malformed keys and `Applied`.
Whatever follows the bucket counts as routing key, suffix included. -/
def routingKey : Bytes → Option (BucketId × Bytes)
  | [] => none
  | tag :: rest =>
    if rest.length < 8 then none
    else
      let bucket := UInt64.ofNat (beNat (rest.take 8))
      let routing := rest.drop 8
      if tag = 0x6f ∨ tag = 0x67 ∨ tag = 0x75 ∨ tag = 0x71 ∨ tag = 0x66 then
        some (bucket, routing)
      else if tag = 0x74 then
        -- skip `expire_ts`; what follows is the routing key
        if routing.length < 8 then none else some (bucket, routing.drop 8)
      else none

/-- The loop of `prefix_end`, over the reversed prefix: drop trailing `0xFF`, bump the next. -/
def prefixEndRev : Bytes → Option Bytes
  | [] => none
  | last :: rest => if last = 0xff then prefixEndRev rest else some ((last + 1) :: rest)

/-- The smallest byte string above every string carrying `prefix`; `none` when unbounded. -/
def prefixEnd (p : Bytes) : Option Bytes := (prefixEndRev p.reverse).map List.reverse

/-- A half-open key range inside one column family: the export unit of a partition. -/
structure KeyRange where
  cf : MetaCf
  start : Bytes
  stop : Bytes
deriving DecidableEq, Repr

/-- Whether an entry of family `cf` at `key` falls inside the range. -/
def KeyRange.covers (r : KeyRange) (cf : MetaCf) (key : Bytes) : Bool :=
  r.cf = cf && decide (r.start ≤ key) && decide (key < r.stop)

/-! ## Suffixes -/

def segNoSuffix (segNo : UInt32) : Bytes := be32 segNo

def uploadPartSuffix (uploadId : BitVec 128) (partNo : UInt32) : Bytes :=
  be128 uploadId ++ be32 partNo

def delqSeqSuffix (seq : UInt64) (segNo : UInt32) : Bytes := be64 seq ++ be32 segNo

@[simp] lemma length_segNoSuffix (n : UInt32) : (segNoSuffix n).length = 4 := length_be32 n

@[simp] lemma length_uploadPartSuffix (u : BitVec 128) (p : UInt32) :
    (uploadPartSuffix u p).length = 20 := by simp [uploadPartSuffix]

@[simp] lemma length_delqSeqSuffix (s : UInt64) (n : UInt32) :
    (delqSeqSuffix s n).length = 12 := by simp [delqSeqSuffix]

@[simp] lemma segNoSuffix_inj {n m : UInt32} : segNoSuffix n = segNoSuffix m ↔ n = m := be32_inj

@[simp] lemma uploadPartSuffix_inj {u v : BitVec 128} {p q : UInt32} :
    uploadPartSuffix u p = uploadPartSuffix v q ↔ u = v ∧ p = q := by
  rw [uploadPartSuffix, uploadPartSuffix, append_eq_append_iff_of_length (by simp)]
  simp

@[simp] lemma delqSeqSuffix_inj {s t : UInt64} {n m : UInt32} :
    delqSeqSuffix s n = delqSeqSuffix t m ↔ s = t ∧ n = m := by
  rw [delqSeqSuffix, delqSeqSuffix, append_eq_append_iff_of_length (by simp)]
  simp

/-! ## What a key determines -/

lemma hierKey_eq_flatKey (cf : MetaCf) (b : BucketId) (ino : UInt64) (name s : Bytes) :
    hierKey cf b ino name s = flatKey cf b (hierRoutingKey ino name) s := by
  simp [hierKey, flatKey, hierRoutingKey]

@[simp] lemma hierRoutingKey_inj {i j : UInt64} {n m : Bytes} :
    hierRoutingKey i n = hierRoutingKey j m ↔ i = j ∧ n = m := by
  rw [hierRoutingKey, hierRoutingKey, append_eq_append_iff_of_length (by simp)]
  simp

variable {cf : MetaCf} {b b' : BucketId} {k k' s s' : Bytes}

lemma flatKey_inj {cf' : MetaCf} (hlen : s.length = s'.length)
    (h : flatKey cf b k s = flatKey cf' b' k' s') :
    b = b' ∧ k = k' ∧ s = s' := by
  simp only [flatKey, List.cons.injEq] at h
  obtain ⟨hb, hks⟩ := List.append_inj h.2 (by simp)
  have hklen : k.length = k'.length := by
    have := congrArg List.length hks
    simp only [List.length_append] at this
    omega
  obtain ⟨hk, hs⟩ := List.append_inj hks hklen
  exact ⟨be64_inj.mp hb, hk, hs⟩

lemma flatKey_eq_iff (hlen : s.length = s'.length) :
    flatKey cf b k s = flatKey cf b' k' s' ↔ b = b' ∧ k = k' ∧ s = s' :=
  ⟨flatKey_inj hlen, by rintro ⟨rfl, rfl, rfl⟩; rfl⟩

@[simp] lemma flatKey_head_inj :
    flatKey cf b k [] = flatKey cf b' k' [] ↔ b = b' ∧ k = k' := by
  rw [flatKey_eq_iff rfl]; simp

/-- A key lies under an object's prefix exactly when its routing key and suffix together extend
the object's key. -/
lemma flatKey_prefix_iff :
    flatKey cf b k s <+: flatKey cf b' k' s' ↔ b = b' ∧ k ++ s <+: k' ++ s' := by
  rw [flatKey, flatKey, List.prefix_cons_inj]
  constructor
  · intro h
    obtain ⟨t, ht⟩ := h
    rw [List.append_assoc] at ht
    obtain ⟨hb, hk⟩ := List.append_inj ht (by simp)
    exact ⟨be64_inj.mp hb, ⟨t, hk⟩⟩
  · rintro ⟨rfl, t, ht⟩
    exact ⟨t, by rw [List.append_assoc, ht]⟩

lemma routingKey_flatKey (hcf : cf ∈ MetaCf.routed) (b : BucketId) (k s : Bytes) :
    routingKey (flatKey cf b k s) = some (b, k ++ s) := by
  have hlen : ¬ (be64 b ++ (k ++ s)).length < 8 := by simp
  have htake : (be64 b ++ (k ++ s)).take 8 = be64 b := by
    rw [List.take_append_of_le_length (by simp), List.take_of_length_le (by simp)]
  have hdrop : (be64 b ++ (k ++ s)).drop 8 = k ++ s := by
    rw [List.drop_append_of_le_length (by simp), List.drop_of_length_le (by simp), List.nil_append]
  simp only [flatKey, routingKey, hlen, if_false, htake, hdrop, beNat_be64]
  simp only [MetaCf.routed, List.mem_cons, List.not_mem_nil, or_false] at hcf
  rcases hcf with rfl | rfl | rfl | rfl | rfl <;> simp [MetaCf.tag]

/-! ## Prefix intervals -/

lemma prefixEndRev_append (p : Bytes) (a : UInt8) :
    prefixEndRev (p ++ [a])
      = match prefixEndRev p with
        | some e => some (e ++ [a])
        | none => if a = 0xff then none else some [a + 1] := by
  induction p with
  | nil => by_cases h : a = 0xff <;> simp [prefixEndRev, h]
  | cons c p ih =>
    by_cases h : c = 0xff
    · simp only [List.cons_append, prefixEndRev, h, if_true, ih]
    · simp only [List.cons_append, prefixEndRev, h, if_false]

lemma prefixEnd_cons (a : UInt8) (p : Bytes) :
    prefixEnd (a :: p)
      = match prefixEnd p with
        | some e => some (a :: e)
        | none => if a = 0xff then none else some [a + 1] := by
  rw [prefixEnd, prefixEnd, List.reverse_cons, prefixEndRev_append]
  cases prefixEndRev p.reverse with
  | some e => simp
  | none => by_cases h : a = 0xff <;> simp [h]

lemma lt_add_one_of_ne {a : UInt8} (h : a ≠ 0xff) : a < a + 1 := by
  have hne : a.toNat ≠ 255 := fun h' => h (UInt8.toNat_inj.mp h')
  have hlt := a.toNat_lt
  rw [UInt8.lt_iff_toNat_lt, UInt8.toNat_add]
  simp only [UInt8.reduceToNat]
  omega

lemma eq_of_le_of_lt_add_one {a b : UInt8} (h : a ≠ 0xff) (hab : a ≤ b) (hb : b < a + 1) :
    a = b := by
  have hne : a.toNat ≠ 255 := fun h' => h (UInt8.toNat_inj.mp h')
  have hlt := a.toNat_lt
  rw [UInt8.lt_iff_toNat_lt, UInt8.toNat_add] at hb
  rw [UInt8.le_iff_toNat_le] at hab
  simp only [UInt8.reduceToNat] at hb
  apply UInt8.toNat_inj.mp
  omega

/-- An unbounded prefix consists of `0xFF` only, so being at or above it is carrying it. -/
lemma le_iff_prefix_of_prefixEnd_eq_none {p : Bytes} (h : prefixEnd p = none) (k : Bytes) :
    p ≤ k ↔ p <+: k := by
  induction p generalizing k with
  | nil => simp [nil_le]
  | cons a p ih =>
    rw [prefixEnd_cons] at h
    cases hp : prefixEnd p with
    | some e => rw [hp] at h; simp at h
    | none =>
      rw [hp] at h
      have ha : a = 0xff := by
        by_contra hne
        simp [hne] at h
      cases k with
      | nil => simp
      | cons c k =>
        rw [cons_le_cons_iff, List.cons_prefix_cons, ih hp, ha]
        have hmax : ¬ (0xff : UInt8) < c := by
          rw [UInt8.lt_iff_toNat_lt]
          have := c.toNat_lt
          simp only [UInt8.reduceToNat]
          omega
        simp [hmax]

/-- **The interval a prefix scan walks is exactly the set of strings carrying the prefix.** -/
theorem prefixEnd_spec {p e : Bytes} (h : prefixEnd p = some e) (k : Bytes) :
    p ≤ k ∧ k < e ↔ p <+: k := by
  induction p generalizing e k with
  | nil => simp [prefixEnd, prefixEndRev] at h
  | cons a p ih =>
    rw [prefixEnd_cons] at h
    cases k with
    | nil => simp
    | cons c k =>
      cases hp : prefixEnd p with
      | some e' =>
        rw [hp, Option.some.injEq] at h
        subst h
        rw [cons_le_cons_iff, List.cons_lt_cons_iff, List.cons_prefix_cons, ← ih hp k]
        constructor
        · rintro ⟨h1 | ⟨rfl, h1⟩, h2 | ⟨h2, h3⟩⟩
          · exact absurd h1 (not_lt.mpr h2.le)
          · exact absurd h2.symm (ne_of_lt h1)
          · exact absurd h2 (lt_irrefl _)
          · exact ⟨rfl, h1, h3⟩
        · rintro ⟨rfl, h1, h2⟩
          exact ⟨Or.inr ⟨rfl, h1⟩, Or.inr ⟨rfl, h2⟩⟩
      | none =>
        rw [hp] at h
        have ha : a ≠ 0xff := by rintro rfl; simp at h
        simp only [ha, if_false, Option.some.injEq] at h
        subst h
        rw [cons_le_cons_iff, List.cons_lt_cons_iff, List.cons_prefix_cons,
          ← le_iff_prefix_of_prefixEnd_eq_none hp k]
        constructor
        · rintro ⟨h1, h2 | ⟨-, h2⟩⟩
          · have hac : a = c := by
              refine eq_of_le_of_lt_add_one ha ?_ h2
              rcases h1 with h1 | ⟨rfl, -⟩
              · exact h1.le
              · exact le_refl _
            subst hac
            exact ⟨rfl, (h1.resolve_left (lt_irrefl _)).2⟩
          · exact absurd h2 (List.not_lt_nil _)
        · rintro ⟨rfl, h1⟩
          exact ⟨Or.inr ⟨rfl, h1⟩, Or.inl (lt_add_one_of_ne ha)⟩

lemma prefixEnd_flatKey_isSome (hcf : cf ≠ MetaCf.Applied) (b : BucketId) (k s : Bytes) :
    ∃ e, prefixEnd (flatKey cf b k s) = some e := by
  rw [flatKey, prefixEnd_cons]
  cases prefixEnd (be64 b ++ (k ++ s)) with
  | some e => exact ⟨_, rfl⟩
  | none =>
    have htag : cf.tag ≠ 0xff := by cases cf <;> simp_all [MetaCf.tag]
    simp [htag]

end Epoch
