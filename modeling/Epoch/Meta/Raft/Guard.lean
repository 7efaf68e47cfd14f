import Epoch.Meta.Account
import Epoch.Meta.GcExport
import Epoch.Meta.Raft.Persisted
import Epoch.Meta.Raft.Queue

/-!
# The guard counts what is stored (`guard.rs`, `raft/state_machine.rs`)

A partition's guard keeps the inline bytes, the inline contents and the object bytes of its range,
and a gauge of its pending deletes.  It is never recomputed: each op adds a signed difference, and
only the gauge is recounted, after a split or an install.  So a split keeps the bytes of the half it
gives away (`guard_counts_given_away`).

`guard_counters_true` says when the guard is right, on every replica of a group and across
snapshots.  Ops must stay in the range with all they count and enqueue, a split must give away
nothing counted, dequeued entries must be there, and a snapshot must be installed over the range it
was built over.  The invariant is `GuardInv`; besides the sums it says that the counted keys encode
coordinates (`Placed`), because recounts and snapshots walk byte bounds, and that pending entries
carry numbers below the counter, because an overwritten entry would be counted twice.
-/

namespace Epoch

/-! ## What the guard should read -/

/-- Inline bytes, inline contents and object bytes of the live records in a range. -/
def liveAccount (store : MetaStore) (range : PartitionRange) : ℕ × ℕ × ℕ :=
  (((store range.ns.primaryCf).toList.filter fun e => range.contains e.1).map
    fun e => range.ns.account e.2).sum

/-- The number of pending deletes in a range. -/
def queueDepth (store : MetaStore) (range : PartitionRange) : ℕ :=
  ((store .Delq).toList.filter fun e => range.contains e.1).length

/-- The guard, and the record persisted for it, read what is stored. -/
structure GuardTrue (s : MetaStore × Machine) : Prop where
  counters : s.2.guard.counters = liveAccount s.1 s.2.range
  record : decodeGuardRecord (s.1.get .Applied (guardKey s.2.group))
    = (s.2.guard.inlineBytes, s.2.guard.inlineCount, s.2.guard.totalBytes)
  depth : s.2.guard.delqDepth.toNat = queueDepth s.1 s.2.range

lemma liveAccount_eq (store : MetaStore) (range : PartitionRange) :
    liveAccount store range = accountOf range.ns range.contains store :=
  ((store range.ns.primaryCf).total_ite (fun _ v => range.ns.account v) range.contains).symm

lemma queueDepth_eq (store : MetaStore) (range : PartitionRange) :
    (queueDepth store range : ℤ)
      = (store .Delq).total fun key _ => if range.contains key then 1 else 0 := by
  rw [OrdMap.total_ite (fun _ _ => (1 : ℤ)), queueDepth]
  simp

/-! ## Byte bounds and membership -/

/-- Every contained key goes to one of the halves. -/
lemma PartitionRange.split_contains {r left right : PartitionRange} {at_ : BucketId × Bytes}
    (h : r.split at_ = some (left, right)) (key : Bytes) :
    r.contains key = (left.contains key || right.contains key) := by
  have hcoord : ∀ b k, r.containsCoord b k = (left.containsCoord b k || right.containsCoord b k) := by
    intro b k
    obtain ⟨hl, hr⟩ := split_containsCoord h b k
    rw [Bool.eq_iff_iff, Bool.or_eq_true, hl, hr]
    have := lt_or_ge (toLex (b, k)) (toLex at_)
    tauto
  obtain ⟨-, -, hl, hr⟩ := split_eq_some h
  cases key with
  | nil => rfl
  | cons tag rest =>
    have hlown : (left.ns, left.ownsSharedCf tag) = (r.ns, r.ownsSharedCf tag) := by rw [hl]; rfl
    have hrown : (right.ns, right.ownsSharedCf tag) = (r.ns, r.ownsSharedCf tag) := by rw [hr]; rfl
    simp only [Prod.mk.injEq] at hlown hrown
    rw [contains, contains, contains, hlown.1, hlown.2, hrown.1, hrown.2]
    cases routingKey (tag :: rest) <;> split_ifs <;> simp [hcoord]

/-- The stored keys that the guard counts are encoded coordinates, and those of the queue lie on the
namespace's side of the bucket ids. -/
structure Placed (store : MetaStore) (range : PartitionRange) : Prop where
  keyed : ∀ {c}, c = range.ns.primaryCf ∨ c = .Delq → ∀ {key v}, store.get c key = some v →
    ∃ b k, key = flatKey c b k []
  sided : ∀ {b k v}, store.get .Delq (flatKey .Delq b k []) = some v →
    range.contains (flatKey .Delq b k []) = true → (range.ns = .Flat ↔ b < HIER_BUCKET_BIT)

section Placed

variable {store store' : MetaStore} {range : PartitionRange}

/-- **The byte bounds pass over exactly the contained keys** that are counted. -/
lemma Placed.scans_iff (h : Placed store range) {c : MetaCf}
    (hc : c = range.ns.primaryCf ∨ c = .Delq) {key : Bytes} {v : MetaValue}
    (hget : store.get c key = some v) : range.scans c key ↔ range.contains key = true := by
  obtain ⟨b, k, rfl⟩ := h.keyed hc hget
  have hrouted : c ∈ MetaCf.routed := by
    rcases hc with rfl | rfl
    · cases range.ns <;> decide
    · decide
  rw [PartitionRange.scans_flatKey hrouted]
  refine ⟨And.left, fun hcontains => ⟨hcontains, fun hshared => ?_⟩⟩
  rcases hc with rfl | rfl
  · cases hns : range.ns <;> simp [hns, Namespace.primaryCf, PartitionRange.isSharedCf] at hshared
  · exact h.sided hget hcontains

/-- **Recounting the queue finds its depth.** -/
lemma Placed.countDelqEntries_eq (h : Placed store range) :
    countDelqEntries store range = UInt64.ofNat (queueDepth store range) := by
  have hfilter : range.keyRanges.filter (fun r => r.cf = .Delq) = [range.keyRange .Delq] := by
    unfold PartitionRange.keyRanges
    cases range.ns <;> simp [PartitionRange.exportedCfs]
  have hmem : MetaCf.Delq ∈ PartitionRange.exportedCfs range.ns := by cases range.ns <;> decide
  rw [countDelqEntries, hfilter, List.map_singleton, List.sum_singleton,
    scanPages_eq_range _ _ _ _ (by decide), queueDepth, OrdMap.range]
  congr 2
  refine List.filter_congr fun e he => ?_
  have hscan := h.scans_iff (Or.inr rfl) (((store .Delq).mem_toList_iff e.1 e.2).mp he)
  rw [PartitionRange.scans] at hscan
  rw [Bool.eq_iff_iff]
  simp only [decide_eq_true_eq, ← hscan]
  exact ⟨fun hb => ⟨hmem, hb⟩, And.right⟩

lemma Placed.toNat_countDelqEntries (h : Placed store range) (hlt : queueDepth store range < 2 ^ 63) :
    (countDelqEntries store range).toNat = queueDepth store range := by
  rw [h.countDelqEntries_eq, UInt64.toNat_ofNat']
  exact Nat.mod_eq_of_lt (by omega)

/-- A narrower range of the same namespace places what it contains. -/
lemma Placed.narrow (h : Placed store range) {range' : PartitionRange} (hns : range'.ns = range.ns)
    (hsub : ∀ key, range'.contains key = true → range.contains key = true) :
    Placed store range' where
  keyed := by rw [hns]; exact h.keyed
  sided hget hcontains := by rw [hns]; exact h.sided hget (hsub _ hcontains)

/-- What is stored afterwards was stored before or put under an encoded coordinate, in the queue on
the namespace's side. -/
lemma Placed.of_puts (h : Placed store range)
    (hputs : ∀ {c}, c = range.ns.primaryCf ∨ c = .Delq → ∀ {key v}, store'.get c key = some v →
      store.get c key = some v
        ∨ ∃ b k, key = flatKey c b k [] ∧ (c = .Delq → (range.ns = .Flat ↔ b < HIER_BUCKET_BIT))) :
    Placed store' range where
  keyed {c} hc {key v} hget := by
    rcases hputs hc hget with hold | ⟨b, k, rfl, -⟩
    · exact h.keyed hc hold
    · exact ⟨b, k, rfl⟩
  sided {b k v} hget hcontains := by
    rcases hputs (Or.inr rfl) hget with hold | ⟨b', k', hkey, hside⟩
    · exact h.sided hold hcontains
    · obtain ⟨rfl, -⟩ := (flatKey_eq_iff rfl).mp hkey
      exact hside rfl

lemma Placed.congr (h : Placed store range)
    (hprimary : store' range.ns.primaryCf = store range.ns.primaryCf)
    (hdelq : store' .Delq = store .Delq) : Placed store' range := by
  refine h.of_puts ?_
  intro c hc key v hget
  refine Or.inl ?_
  rcases hc with rfl | rfl
  · rwa [MetaStore.get, hprimary] at hget
  · rwa [MetaStore.get, hdelq] at hget

end Placed

/-! ## The condition on an entry -/

/-- What the counters need of an entry.  A namespace op must belong to the range with everything it
counts or enqueues, under a bucket of its namespace; a split must give away nothing counted; a
dequeue must remove distinct entries that are there. -/
def Machine.Counts (m : Machine) (store : MetaStore) (entry : Entry) : Prop :=
  match entry.payload with
  | .Normal (.Flat op) =>
    m.range.ns = .Flat ∧ m.range.ownsFamily op.bucket op.key ∧ op.bucket < HIER_BUCKET_BIT
      ∧ m.delqNext.toNat + 1 < 2 ^ 64 ∧ (live store).card < 2 ^ 32
  | .Normal (.Hier op) =>
    m.range.ns = .Hier ∧ (∀ key ∈ op.replaces, m.range.contains key = true)
      ∧ (∀ at_ ∈ op.captures, m.range.ownsFamily at_.1 at_.2 ∧ HIER_BUCKET_BIT ≤ at_.1)
      ∧ op.sparesFiles store ∧ m.delqNext.toNat + 1 < 2 ^ 64 ∧ (live store).card < 2 ^ 32
  | .Normal (.Split op) =>
    op.childGroup ≠ m.group ∧ ∀ halves ∈ m.range.split (op.atBucket, op.atRoutingKey),
      ∀ e ∈ (store m.range.ns.primaryCf).toList, halves.2.contains e.1 = true →
        m.range.ns.account e.2 = 0
  | .Normal (.StoreOps batch) =>
    (batch.map WriteOp.key).Nodup ∧ ∀ op ∈ batch, op.cf = .Delq ∧ op.value = none
      ∧ store.get .Delq op.key ≠ none ∧ m.range.contains op.key = true
  | _ => True

instance (m : Machine) (store : MetaStore) : (entry : Entry) → Decidable (m.Counts store entry)
  | ⟨_, .Normal (.StoreOps _)⟩ | ⟨_, .Normal (.Flat _)⟩ | ⟨_, .Normal (.Hier _)⟩
  | ⟨_, .Normal (.Split _)⟩ => inferInstanceAs (Decidable (_ ∧ _))
  | ⟨_, .Blank⟩ | ⟨_, .Membership _⟩ => inferInstanceAs (Decidable True)

/-! ## The queue gauge -/

lemma delqDelta_eq (ops : List StoreOp) :
    delqDelta ops
      = Int64.ofInt ((KvStore.on .Delq ops).map fun w => if w.2.isSome then 1 else -1).sum := by
  have hfold : ∀ (ops : List StoreOp) (n : Int64),
      (ops.filter fun op => op.cf = .Delq).foldl
          (fun n op => if op.value.isSome then n + 1 else n - 1) n
        = n + Int64.ofInt ((KvStore.on .Delq ops).map fun w => if w.2.isSome then 1 else -1).sum := by
    intro ops
    induction ops with
    | nil => intro n; simp
    | cons op ops ih =>
      intro n
      by_cases hcf : op.cf = .Delq
      · rw [List.filter_cons_of_pos (by simpa using hcf), List.foldl_cons, ih, KvStore.on_cons,
          if_pos hcf]
        simp only [List.singleton_append, List.map_cons, List.sum_cons, Int64.ofInt_add,
          ← Int64.add_assoc]
        cases op.value.isSome with
        | true => rfl
        | false => rw [if_neg (by simp), if_neg (by simp), Int64.sub_eq_add_neg]; rfl
      · rw [List.filter_cons_of_neg (by simpa using hcf), ih, KvStore.on_cons, if_neg hcf,
          List.nil_append]
  rw [delqDelta, hfold]
  simp

variable {store : MetaStore}

/-- A batch that enqueues absent keys and dequeues present ones, each once and all in the range,
changes the depth by its puts minus its deletes. -/
lemma queueDepth_applyBatch {range : PartitionRange} {ops : List StoreOp}
    (hnodup : ((KvStore.on .Delq ops).map Prod.fst).Nodup)
    (hin : ∀ w ∈ KvStore.on .Delq ops, range.contains w.1 = true)
    (hold : ∀ w ∈ KvStore.on .Delq ops, (store.get .Delq w.1).isSome = !w.2.isSome) :
    (queueDepth (store.applyBatch ops) range : ℤ)
      = queueDepth store range
        + ((KvStore.on .Delq ops).map fun w => if w.2.isSome then 1 else -1).sum := by
  rw [queueDepth_eq, queueDepth_eq, KvStore.applyBatch_cf]
  have htotal := (store .Delq).total_writeAll (fun key _ => if range.contains key then (1 : ℤ) else 0)
    (KvStore.on .Delq ops) hnodup
  have hshare : ((KvStore.on .Delq ops).map fun w =>
        (w.2.map fun _ => if range.contains w.1 then (1 : ℤ) else 0).getD 0)
      = (KvStore.on .Delq ops).map fun w =>
        (((store .Delq).get w.1).map fun _ => if range.contains w.1 then (1 : ℤ) else 0).getD 0
          + if w.2.isSome then 1 else -1 := by
    refine List.map_congr_left fun w hw => ?_
    have hold' := hold w hw
    rw [MetaStore.get] at hold'
    rw [if_pos (hin w hw)]
    cases hv : w.2 <;> cases hg : (store .Delq).get w.1 <;> simp [hv, hg] at hold' ⊢
  rw [hshare, List.sum_map_add, ← add_assoc] at htotal
  linarith

/-- The gauge follows the depth while both are small. -/
lemma toNat_accountDelq {g : PartitionGuard} {d d' : ℕ} {x : ℤ} (hg : g.delqDepth.toNat = d)
    (hd : d < 2 ^ 63) (hd' : d' < 2 ^ 63) (hx : (d' : ℤ) = d + x) :
    (g.accountDelq (Int64.ofInt x)).delqDepth.toNat = d' := by
  have hint : (Int64.ofInt x).toInt = x := Int64.toInt_ofInt_of_le (by omega) (by omega)
  have h := toNat_saturatingAddSigned (n := g.delqDepth) (d := Int64.ofInt x) (by omega) (by omega)
  have hgauge : (g.accountDelq (Int64.ofInt x)).delqDepth
      = saturatingAddSigned g.delqDepth (Int64.ofInt x) := rfl
  rw [hgauge]
  omega

/-! ## The invariant -/

/-- What holds of every replica: its guard reads what is stored, its records mirror it, and the keys
it counts are placed and numbered as the queue expects. -/
structure GuardInv (store : MetaStore) (m : Machine) : Prop where
  counters : m.guard.counters = liveAccount store m.range
  depth : m.guard.delqDepth.toNat = queueDepth store m.range
  persisted : ∃ bootstrap, Persisted bootstrap store m
  placed : Placed store m.range
  below : ∀ {b k q i}, m.range.contains (delqKey b k q i) = true →
    store.get .Delq (delqKey b k q i) ≠ none → q.toNat < m.delqNext.toNat

lemma GuardInv.guardTrue {m : Machine} (h : GuardInv store m) :
    GuardTrue (store, m) := by
  obtain ⟨bootstrap, hp⟩ := h.persisted
  exact ⟨h.counters, hp.guard, h.depth⟩

/-- The sums that a guard keeps fit its counters. -/
def Modest (store : MetaStore) (range : PartitionRange) : Prop :=
  Small (liveAccount store range) ∧ queueDepth store range < 2 ^ 63

instance (store : MetaStore) (range : PartitionRange) : Decidable (Modest store range) :=
  instDecidableAnd

section Step

variable {blake3 : Bytes → BitVec 256} {store store' : MetaStore} {m m' : Machine} {entry : Entry}
  {ops : List StoreOp} {bootstrap : PartitionRange}

/-- A step that touches no counted family and no counter. -/
lemma GuardInv.of_same (h : GuardInv store m) (hrange : m'.range = m.range)
    (hprimary : store' m.range.ns.primaryCf = store m.range.ns.primaryCf)
    (hdelq : store' .Delq = store .Delq) (hcounters : m'.guard.counters = m.guard.counters)
    (hdepth : m'.guard.delqDepth.toNat = queueDepth store m.range)
    (hnext : m'.delqNext = m.delqNext) (hp : Persisted bootstrap store' m') :
    GuardInv store' m' where
  counters := by rw [hcounters, h.counters, hrange, liveAccount, liveAccount, hprimary]
  depth := by rw [hdepth, hrange, queueDepth, queueDepth, hdelq]
  persisted := ⟨bootstrap, hp⟩
  placed := by
    rw [hrange]
    exact h.placed.congr hprimary hdelq
  below {b k q i} hcontains hget := by
    rw [hrange] at hcontains
    rw [MetaStore.get, hdelq] at hget
    rw [hnext]
    exact h.below hcontains hget

variable {seq : UInt64} {delta : GuardDelta} {out : ApplyOutcome} {key : Bytes} {v : MetaValue}
  {ops' : List StoreOp}

/-- A namespace op: what it counts is in the range, and so is what it enqueues. -/
lemma GuardInv.of_op (h : GuardInv store m) (at_ : Option (BucketId × Bytes))
    (hrange : m'.range = m.range) (hnext : m'.delqNext = m.delqNext + 1)
    (hguard : m'.guard = m.guard.account delta)
    (hbalanced : Balanced m.range.ns m.range.contains store (store.applyBatch ops) delta)
    (henq : Enqueues store at_ m.delqNext ops)
    (hat : ∀ c ∈ at_, m.range.ownsFamily c.1 c.2 ∧ (m.range.ns = .Flat ↔ c.1 < HIER_BUCKET_BIT))
    (hputs : ∀ {key v}, (key, some v) ∈ KvStore.on m.range.ns.primaryCf ops → ∃ b k, key = flatKey m.range.ns.primaryCf b k [])
    (hover : m.delqNext.toNat + 1 < 2 ^ 64) (hcard : (live store).card < 2 ^ 32)
    (hmodest : Modest store m.range) (hmodest' : Modest (store.applyBatch ops) m.range)
    (hp : Persisted bootstrap (store.applyBatch ops) m') :
    GuardInv (store.applyBatch ops)
      { m' with guard := m'.guard.accountDelq (delqDelta ops) } := by
  -- every queue write is a put under the current number, at a coordinate of the range
  have hqueue : ∀ w ∈ KvStore.on .Delq ops, ∃ b k i, w.1 = delqKey b k m.delqNext i
      ∧ m.range.contains w.1 = true ∧ (m.range.ns = .Flat ↔ b < HIER_BUCKET_BIT)
      ∧ w.2.isSome = true := by
    intro w hw
    obtain ⟨b, k, i, hat', hkey⟩ := henq.mem hw
    obtain ⟨hown, hside⟩ := hat _ hat'
    refine ⟨b, k, i, hkey, ?_, hside, henq.isSome hw⟩
    rw [hkey, delqKey, PartitionRange.contains_flatKey (by decide), hown.containsCoord]
    cases hns : m.range.ns <;> simp [PartitionRange.ownsCf, PartitionRange.exportedCfs, hns]
  refine ⟨?_, ?_, ⟨bootstrap, hp.congr rfl rfl rfl rfl rfl ⟨rfl, rfl, rfl⟩⟩, ?_, ?_⟩
  · have hcounters : ({ m' with guard := m'.guard.accountDelq (delqDelta ops) } :
        Machine).guard.counters = m'.guard.counters := rfl
    rw [hcounters, hguard]
    simp only [hrange]
    rw [liveAccount_eq]
    refine hbalanced.account_eq (h.counters.trans (liveAccount_eq _ _)) ?_ ?_
    · rw [← liveAccount_eq]
      exact hmodest.1
    · rw [← liveAccount_eq]
      exact hmodest'.1
  · simp only [hrange, delqDelta_eq]
    refine toNat_accountDelq ?_ hmodest.2 hmodest'.2 ?_
    · rw [hguard]
      exact h.depth
    · refine queueDepth_applyBatch (henq.nodup hcard) (fun w hw => ?_) fun w hw => ?_
      · obtain ⟨b, k, i, -, hin, -⟩ := hqueue w hw
        exact hin
      · obtain ⟨b, k, i, hkey, hin, -, hsome⟩ := hqueue w hw
        rw [hsome, Bool.not_true, Option.isSome_eq_false_iff, Option.isNone_iff_eq_none]
        by_contra hne
        rw [hkey] at hin hne
        exact absurd (h.below hin hne) (lt_irrefl _)
  · simp only [hrange]
    refine h.placed.of_puts ?_
    intro c hc key v hget
    rw [MetaStore.get, KvStore.applyBatch_cf] at hget
    rcases OrdMap.get_writeAll_eq_some hget with hmem | hold
    · rcases hc with rfl | rfl
      · obtain ⟨b, k, rfl⟩ := hputs hmem
        refine Or.inr ⟨b, k, rfl, fun hc => ?_⟩
        cases hns : m.range.ns <;> rw [hns] at hc <;> cases hc
      · obtain ⟨b, k, i, hkey, -, hside, -⟩ := hqueue _ hmem
        exact Or.inr ⟨b, k ++ delqSeqSuffix m.delqNext i, hkey.trans (by simp [delqKey, flatKey]),
          fun _ => hside⟩
    · exact Or.inl hold
  · intro b k q i hcontains hget
    simp only [hrange] at hcontains
    obtain ⟨v, hv⟩ := Option.ne_none_iff_exists'.mp hget
    rw [MetaStore.get, KvStore.applyBatch_cf] at hv
    simp only [hnext, toNat_succ hover]
    rcases OrdMap.get_writeAll_eq_some hv with hmem | hold
    · obtain ⟨b', k', i', hkey, -⟩ := hqueue _ hmem
      obtain ⟨-, -, rfl, -⟩ := delqKey_inj.mp hkey
      omega
    · have hlt := h.below hcontains (by rw [MetaStore.get, hold]; simp)
      omega

/-- A dequeue removes entries that are there. -/
lemma GuardInv.of_dequeue (h : GuardInv store m) {keys : List Bytes}
    (hprimary : KvStore.on m.range.ns.primaryCf ops = [])
    (hon : KvStore.on .Delq ops = keys.map fun key => (key, none)) (hnodup : keys.Nodup)
    (hkeys : ∀ key ∈ keys, store.get .Delq key ≠ none ∧ m.range.contains key = true)
    (hmodest : Modest store m.range) (hmodest' : Modest (store.applyBatch ops) m.range)
    (hp : Persisted bootstrap (store.applyBatch ops) m) :
    GuardInv (store.applyBatch ops)
      { m with guard := m.guard.accountDelq (delqDelta ops) } := by
  have hsame : store.applyBatch ops m.range.ns.primaryCf = store m.range.ns.primaryCf := by
    rw [KvStore.applyBatch_cf, hprimary, OrdMap.writeAll_nil]
  have hgone : ∀ {key v}, MetaStore.get (store.applyBatch ops) .Delq key = some v →
      store.get .Delq key = some v := by
    intro key v hget
    rw [MetaStore.get, KvStore.applyBatch_cf, hon, OrdMap.get_writeAll_deletes] at hget
    split_ifs at hget
    exact hget
  refine ⟨?_, ?_, ⟨bootstrap, hp.congr rfl rfl rfl rfl rfl ⟨rfl, rfl, rfl⟩⟩, ?_, ?_⟩
  · have hcounters := h.counters
    rw [liveAccount, ← hsame] at hcounters
    exact hcounters
  · simp only [delqDelta_eq]
    refine toNat_accountDelq h.depth hmodest.2 hmodest'.2 (queueDepth_applyBatch ?_ ?_ ?_)
    · rw [hon, List.map_map]
      simpa [Function.comp_def] using hnodup
    · intro w hw
      rw [hon] at hw
      obtain ⟨key, hkey, rfl⟩ := List.mem_map.mp hw
      exact (hkeys key hkey).2
    · intro w hw
      rw [hon] at hw
      obtain ⟨key, hkey, rfl⟩ := List.mem_map.mp hw
      simpa [Option.isSome_iff_ne_none] using (hkeys key hkey).1
  · refine h.placed.of_puts ?_
    intro c hc key v hget
    refine Or.inl ?_
    rcases hc with rfl | rfl
    · rwa [MetaStore.get, hsame] at hget
    · exact hgone hget
  · intro b k q i hcontains hget
    obtain ⟨v, hv⟩ := Option.ne_none_iff_exists'.mp hget
    exact h.below hcontains (by rw [hgone hv]; simp)

/-- A split that gives away nothing counted. -/
lemma GuardInv.of_split (h : GuardInv store m) {op : SplitOp} {left right : PartitionRange}
    (hs : m.range.split (op.atBucket, op.atRoutingKey) = some (left, right))
    (hempty : ∀ e ∈ (store m.range.ns.primaryCf).toList, right.contains e.1 = true →
      m.range.ns.account e.2 = 0)
    (hprimary : store' m.range.ns.primaryCf = store m.range.ns.primaryCf)
    (hdelq : store' .Delq = store .Delq) (hmodest' : Modest store' left)
    (hp : Persisted bootstrap store' { m with range := left }) :
    GuardInv store' { m with
      range := left
      guard := { m.guard with delqDepth := countDelqEntries store' left } } := by
  have hns : left.ns = m.range.ns := by
    obtain ⟨-, -, rfl, -⟩ := PartitionRange.split_eq_some hs
    rfl
  have hcontains := PartitionRange.split_contains hs
  have hplaced : Placed store' left := by
    refine (h.placed.congr hprimary hdelq).narrow hns fun key hkey => ?_
    rw [hcontains key, hkey, Bool.true_or]
  refine ⟨?_, ?_, ⟨bootstrap, hp.congr rfl rfl rfl rfl rfl ⟨rfl, rfl, rfl⟩⟩, hplaced, ?_⟩
  · have hcounters := h.counters
    rw [liveAccount_eq] at hcounters
    refine hcounters.trans ?_
    rw [liveAccount_eq, hns]
    refine accountOf_congr fun key => ?_
    rw [hcontains key, MetaStore.get, MetaStore.get, hprimary]
    -- a key of the right half counts for nothing
    cases hl : left.contains key with
    | true => rfl
    | false =>
      cases hr : right.contains key with
      | false => rfl
      | true =>
        cases hv : (store m.range.ns.primaryCf).get key with
        | none => rfl
        | some v => exact hempty (key, v) (((store _).mem_toList_iff key v).mpr hv) hr
  · exact hplaced.toNat_countDelqEntries hmodest'.2
  · intro b k q i hin hget
    rw [MetaStore.get, hdelq] at hget
    have hin' : m.range.contains (delqKey b k q i) = true := by rw [hcontains, hin, Bool.true_or]
    exact h.below hin' hget

/-- Everything a flat or hierarchical op puts in its primary family is keyed by a coordinate. -/
lemma Flat.put_keyed {op : FlatOp} (ha : Flat.apply blake3 store op seq = .ok out)
    (hmem : (key, some v) ∈ KvStore.on .Meta out.ops) : ∃ b k, key = flatKey .Meta b k [] := by
  obtain ⟨-, t, ht⟩ := Flat.apply_writes ha .Meta _ hmem
  exact ⟨op.bucket, op.key ++ t, ht.symm.trans (by simp [flatKey])⟩

lemma Hier.put_keyed {op : HierOp} {ino ino' : InoAllocator}
    (ha : Hier.apply store op seq ino = .ok (out, ino'))
    (hmem : (key, some v) ∈ KvStore.on .Fs out.ops) : ∃ b k, key = flatKey .Fs b k [] := by
  have hunder : ∀ {b k}, under hierCfs b k .Fs key → ∃ b k, key = flatKey .Fs b k [] := by
    rintro b k ⟨-, t, ht⟩
    exact ⟨b, k ++ t, by simp [← ht, flatKey]⟩
  have hrecord : ∀ {b i n}, atRecord b i n .Fs key → ∃ b k, key = flatKey .Fs b k [] := by
    rintro b i n ⟨-, rfl⟩
    exact ⟨b, hierRoutingKey i n, rfl⟩
  have hfoot := Hier.apply_writes ha .Fs _ hmem
  cases op with
  | Write b i n size etag content http ts => exact hfoot.elim hunder fun h => hrecord h.1
  | Unlink b i n ts => exact hfoot.elim hunder fun h => hrecord h.1
  | MkdirSentinel b i n ts =>
    obtain ⟨child, ino', -, -, h⟩ := hfoot
    exact hrecord h
  | MkdirLink b i n child ts => exact hfoot.elim hrecord fun h => hrecord h.1
  | RmdirUnlink b i n ts => exact hfoot.elim hrecord fun h => hrecord h.1
  | RmdirSentinel b i ts => exact hrecord hfoot.1
  | RenameSameDir b i source target ts =>
    rcases hfoot with h | h | h
    · exact hunder h
    · exact hunder h
    · exact hrecord h.1

/-- The queue share of a batch of dequeues. -/
lemma on_dequeue {batch : List StoreOp} (h : ∀ op ∈ batch, op.cf = .Delq ∧ op.value = none) :
    KvStore.on .Delq batch = batch.map fun op => (op.key, none) := by
  induction batch with
  | nil => rfl
  | cons op batch ih =>
    obtain ⟨hcf, hvalue⟩ := h op List.mem_cons_self
    rw [KvStore.on_cons, if_pos hcf, hvalue, List.map_cons,
      ih fun op' hop => h op' (List.mem_cons_of_mem op hop)]
    rfl

/-- A batch with the same shares balances and enqueues the same. -/
lemma Balanced.of_on_eq {ns : Namespace} {p : Bytes → Bool}
    (h : Balanced ns p store (store.applyBatch ops) delta)
    (hon : KvStore.on ns.primaryCf ops' = KvStore.on ns.primaryCf ops) :
    Balanced ns p store (store.applyBatch ops') delta := by
  have haccount : accountOf ns p (store.applyBatch ops') = accountOf ns p (store.applyBatch ops) := by
    rw [accountOf, accountOf, KvStore.applyBatch_cf, KvStore.applyBatch_cf, hon]
  unfold Balanced at h ⊢
  rwa [haccount]

lemma Enqueues.of_on_eq {at_ : Option (BucketId × Bytes)} (h : Enqueues store at_ seq ops)
    (hon : KvStore.on .Delq ops' = KvStore.on .Delq ops) :
    Enqueues store at_ seq ops' := by
  unfold Enqueues at h ⊢
  rwa [hon]

/-- **A committed entry keeps the invariant.** -/
theorem Machine.Effect.guardInv (heff : Effect blake3 store m entry ops m') (h : GuardInv store m)
    (hcounts : m.Counts store entry) (hmodest : Modest store m.range) (last : Bool)
    (hmodest' : Modest (store.applyBatch (ops ++ m'.appliedShare entry last)) m'.range) :
    GuardInv (store.applyBatch (ops ++ m'.appliedShare entry last))
      (m'.regauge (store.applyBatch (ops ++ m'.appliedShare entry last)) entry
        (ops ++ m'.appliedShare entry last)) := by
  obtain ⟨bootstrap, hp⟩ := h.persisted
  have hdata : entry.dataOnly = true := by
    unfold Entry.dataOnly
    split
    · rename_i batch hpay
      simp only [Machine.Counts, hpay] at hcounts
      rw [List.all_eq_true]
      intro op hop
      simp [(hcounts.2 op hop).1]
    · rfl
  have hother : entry.splitsOther m.group := by
    unfold Entry.splitsOther
    split
    · rename_i op hpay
      simp only [Machine.Counts, hpay] at hcounts
      exact hcounts.1
    · trivial
  have hp' := heff.persisted hdata hother hp last
  have hprimary : m.range.ns.primaryCf ≠ .Applied := by cases m.range.ns <;> decide
  have hquiet : ∀ {c}, c ≠ .Applied → KvStore.on c ops = [] →
      store.applyBatch (ops ++ m'.appliedShare entry last) c = store c := by
    intro c hc hops
    rw [KvStore.applyBatch_cf, KvStore.on_append, hops, on_appliedShare hc]
    rfl
  have hgauge : KvStore.on .Delq ops = [] →
      delqDelta (ops ++ m'.appliedShare entry last) = Int64.ofInt 0 := by
    intro hops
    rw [delqDelta_eq, KvStore.on_append, hops, on_appliedShare (by decide)]
    rfl
  have hzero : (m.guard.accountDelq (Int64.ofInt 0)).delqDepth.toNat = queueDepth store m.range :=
    toNat_accountDelq h.depth hmodest.2 hmodest.2 (add_zero _).symm
  cases heff with
  | blank hpay =>
    simp only [regauge, hpay, hgauge rfl]
    exact h.of_same rfl (hquiet hprimary rfl) (hquiet (by decide) rfl) rfl hzero rfl
      (hp'.congr rfl rfl rfl rfl rfl ⟨rfl, rfl, rfl⟩)
  | membership hpay =>
    simp only [regauge, hpay, hgauge (by simp [WriteOp.put])]
    exact h.of_same rfl (hquiet hprimary (by simp [WriteOp.put, hprimary.symm]))
      (hquiet (by decide) (by simp [WriteOp.put])) rfl hzero rfl
      (hp'.congr rfl rfl rfl rfl rfl ⟨rfl, rfl, rfl⟩)
  | idleSplit hpay hs =>
    simp only [regauge, hpay]
    have hdelq := hquiet (c := .Delq) (by decide) rfl
    refine h.of_same rfl (hquiet hprimary rfl) hdelq rfl ?_ rfl
      (hp'.congr rfl rfl rfl rfl rfl ⟨rfl, rfl, rfl⟩)
    have hcount := (h.placed.congr (hquiet hprimary rfl) hdelq).toNat_countDelqEntries hmodest'.2
    rw [hcount, queueDepth, queueDepth, hdelq]
  | @split op left right hpay hs =>
    simp only [Machine.Counts, hpay] at hcounts
    simp only [regauge, hpay]
    refine h.of_split hs (hcounts.2 _ hs) (hquiet hprimary ?_) (hquiet (by decide) ?_) hmodest' hp'
    · simp [splitRecords, WriteOp.put, hprimary.symm]
    · simp [splitRecords, WriteOp.put]
  | storeOps hpay =>
    simp only [Machine.Counts, hpay] at hcounts
    obtain ⟨hnodup, hbatch⟩ := hcounts
    simp only [regauge, hpay]
    refine h.of_dequeue ?_ ?_ hnodup ?_ hmodest hmodest' hp'
    · rw [KvStore.on_append, on_appliedShare hprimary, List.append_nil]
      refine List.eq_nil_iff_forall_not_mem.mpr fun w hw => ?_
      have hcf : m.range.ns.primaryCf = .Delq := (hbatch _ (KvStore.mem_on.mp hw)).1
      revert hcf
      cases m.range.ns <;> decide
    · rw [KvStore.on_append, on_appliedShare (by decide), List.append_nil, List.map_map]
      exact on_dequeue fun op hop => ⟨(hbatch op hop).1, (hbatch op hop).2.1⟩
    · intro key hkey
      obtain ⟨op, hop, rfl⟩ := List.mem_map.mp hkey
      exact (hbatch op hop).2.2
  | @flat op out hpay ha =>
    simp only [Machine.Counts, hpay] at hcounts
    obtain ⟨hns, hown, hbit, hover, hcard⟩ := hcounts
    simp only [regauge, hpay]
    have hon : ∀ {c}, c ≠ .Applied → KvStore.on c
        (out.ops ++ [(m.afterFlat out).delqSeqPut, (m.afterFlat out).guardPut]
          ++ (m.afterFlat out).appliedShare entry last) = KvStore.on c out.ops := by
      intro c hc
      simp [KvStore.on_append, on_appliedShare hc, delqSeqPut, guardPut, WriteOp.put, hc.symm]
    refine h.of_op (some (op.bucket, op.key)) rfl rfl rfl ?_ ?_ ?_ ?_ hover hcard hmodest
      hmodest' hp'
    · refine Balanced.of_on_eq ?_ (hon hprimary)
      rw [hns]
      refine Flat.apply_balanced ?_ ha
      have hin := hown.containsCoord []
      rw [Flat.headKey, PartitionRange.contains_flatKey (by decide), hin]
      simp [PartitionRange.ownsCf, PartitionRange.exportedCfs, hns]
    · exact (Flat.apply_enqueues ha).of_on_eq (hon (by decide))
    · rintro c ⟨⟩
      exact ⟨hown, by simp [hns, hbit]⟩
    · intro key v hmem
      rw [hon hprimary, hns] at hmem
      rw [hns]
      exact Flat.put_keyed ha hmem
  | @hier op out ino' hpay ha =>
    simp only [Machine.Counts, hpay] at hcounts
    obtain ⟨hns, hreplaces, hcaptures, hspares, hover, hcard⟩ := hcounts
    simp only [regauge, hpay]
    have hon : ∀ {c}, c ≠ .Applied → KvStore.on c
        (out.ops ++ [(m.afterHier out ino').delqSeqPut, (m.afterHier out ino').inoSeqPut,
          (m.afterHier out ino').guardPut] ++ (m.afterHier out ino').appliedShare entry last)
        = KvStore.on c out.ops := by
      intro c hc
      simp [KvStore.on_append, on_appliedShare hc, delqSeqPut, inoSeqPut, guardPut, WriteOp.put,
        hc.symm]
    refine h.of_op _ rfl rfl rfl ?_ ((Hier.apply_enqueues ha).of_on_eq (hon (by decide))) ?_ ?_ hover
      hcard hmodest hmodest' hp'
    · refine Balanced.of_on_eq ?_ (hon hprimary)
      rw [hns]
      exact Hier.apply_balanced hreplaces hspares ha
    · intro c hc
      obtain ⟨hown, hbit⟩ := hcaptures c hc
      exact ⟨hown, by simp [hns, hbit]⟩
    · intro key v hmem
      rw [hon hprimary, hns] at hmem
      rw [hns]
      exact Hier.put_keyed ha hmem

end Step

/-! ## Snapshots -/

section Snapshot

variable {store src src' : MetaStore} {m ms : Machine} {n : UInt64} {data : SnapshotData}
  {record : SnapshotMeta}

/-- What a snapshot carries: the group's records, and the scanned and contained keys. -/
lemma buildSnapshot_ok (hb : ms.buildSnapshot src n = .ok (data, record, src')) :
    (data.inlineBytes, data.inlineCount, data.totalBytes)
        = decodeGuardRecord (src.get .Applied (guardKey ms.group))
      ∧ data.delqSeq = readU64 src (delqSeqKey ms.group)
      ∧ (∀ c key v, (c, key, v) ∈ data.entries
          ↔ src.get c key = some v ∧ ms.range.scans c key ∧ ms.range.contains key = true)
      ∧ src' = src.applyBatch [WriteOp.put .Applied (snapshotKey ms.group) (.Snapshot record)] := by
  unfold Machine.buildSnapshot at hb
  cases happlied : ms.appliedState src with
  | error e => simp [happlied] at hb
  | ok a =>
    simp only [happlied, Except.ok.injEq, Prod.mk.injEq] at hb
    obtain ⟨rfl, rfl, rfl⟩ := hb
    refine ⟨rfl, rfl, fun c key v => ?_, rfl⟩
    simp only [List.mem_filter, MetaStore.snapshot, PartitionRange.keyRanges, List.mem_flatMap,
      List.mem_map]
    constructor
    · rintro ⟨⟨_, ⟨c', hc', rfl⟩, e, he, heq⟩, hcontains⟩
      rw [OrdMap.mem_range] at he
      simp only [PartitionRange.keyRange_cf, Prod.mk.injEq] at heq he
      obtain ⟨rfl, rfl, rfl⟩ := heq
      exact ⟨he.1, ⟨hc', he.2⟩, hcontains⟩
    · rintro ⟨hget, hscan, hcontains⟩
      refine ⟨⟨_, ⟨c, hscan.1, rfl⟩, (key, v), ?_, by simp⟩, hcontains⟩
      rw [OrdMap.mem_range, PartitionRange.keyRange_cf]
      exact ⟨hget, hscan.2⟩

/-- **An install copies the counted families** of a source with the same range, and leaves what lies
outside the range. -/
lemma get_installSnapshot (hb : ms.buildSnapshot src n = .ok (data, record, src'))
    (hsrc : Placed src ms.range) (htarget : Placed store m.range) (hrange : ms.range = m.range)
    {c : MetaCf} (hc : c = m.range.ns.primaryCf ∨ c = .Delq) (key : Bytes) :
    MetaStore.get (m.installSnapshot store record data).1 c key
      = if m.range.contains key then src.get c key else store.get c key := by
  obtain ⟨-, -, hentries, -⟩ := buildSnapshot_ok hb
  have hne : c ≠ .Applied := by
    rcases hc with rfl | rfl
    · cases m.range.ns <;> decide
    · decide
  have hrecords : KvStore.on c (m.installRecords record data) = [] := by
    simp only [Machine.installRecords]
    cases data.lastApplied <;> simp [WriteOp.put, WriteOp.delete, hne.symm]
  rw [installSnapshot_store, MetaStore.get, KvStore.applyBatch_cf, KvStore.on_append,
    KvStore.on_append, hrecords, List.append_nil, on_map_entries, OrdMap.writeAll_append]
  have hput : ∀ {o}, (key, o) ∈ (data.entries.filter fun e => e.1 = c).map
      (fun e => (e.2.1, some e.2.2)) → m.range.contains key = true ∧ o = src.get c key := by
    intro o ho
    obtain ⟨⟨c', key', v⟩, he, heq⟩ := List.mem_map.mp ho
    simp only [List.mem_filter, decide_eq_true_eq] at he
    obtain ⟨he, rfl⟩ := he
    obtain ⟨rfl, rfl⟩ := Prod.mk.injEq _ _ _ _ ▸ heq
    obtain ⟨hget, -, hcontains⟩ := (hentries c' key' v).mp he
    exact ⟨hrange ▸ hcontains, hget.symm⟩
  have hclear : ∀ {o}, (key, o) ∈ KvStore.on c (m.clearOps store) →
      o = none ∧ m.range.contains key = true := by
    intro o ho
    obtain ⟨hnone, hmem, hget, hbounds⟩ := mem_on_clearOps.mp ho
    obtain ⟨v, hv⟩ := Option.ne_none_iff_exists'.mp hget
    exact ⟨hnone, (htarget.scans_iff hc hv).mp ⟨hmem, hbounds⟩⟩
  by_cases hcontains : m.range.contains key = true
  · rw [if_pos hcontains]
    cases hget : src.get c key with
    | some v =>
      have hscan := (hsrc.scans_iff (hrange ▸ hc) hget).mpr (hrange ▸ hcontains)
      refine OrdMap.get_writeAll_of_forall ?_ fun o' ho' => (hput ho').2.trans hget
      refine List.mem_map.mpr ⟨(c, key, v), ?_, rfl⟩
      simp only [List.mem_filter, decide_eq_true_eq]
      exact ⟨(hentries c key v).mpr ⟨hget, hscan, hrange ▸ hcontains⟩, trivial⟩
    | none =>
      rcases OrdMap.get_writeAll_cases ((store c).writeAll (KvStore.on c (m.clearOps store)))
        ((data.entries.filter fun e => e.1 = c).map fun e => (e.2.1, some e.2.2)) key
        with hsame | hmem
      · rw [hsame]
        -- not copied: either it was never here, or it is cleared
        cases hold : store.get c key with
        | none =>
          rcases OrdMap.get_writeAll_cases (store c) (KvStore.on c (m.clearOps store)) key
            with hsame' | hmem
          · rw [hsame']
            exact hold
          · exact (hclear hmem).1
        | some v =>
          have hscan := (htarget.scans_iff hc hold).mpr hcontains
          refine OrdMap.get_writeAll_of_forall ?_ fun o' ho' => (hclear ho').1
          exact mem_on_clearOps.mpr ⟨rfl, hscan.1, by simp [hold], hscan.2⟩
      · exact (hput hmem).2.trans hget
  · rw [if_neg hcontains, OrdMap.get_writeAll_of_notMem, OrdMap.get_writeAll_of_notMem]
    · rfl
    · intro hmem
      obtain ⟨⟨key', o⟩, ho, rfl⟩ := List.mem_map.mp hmem
      exact hcontains (hclear ho).2
    · intro hmem
      obtain ⟨⟨key', o⟩, ho, rfl⟩ := List.mem_map.mp hmem
      exact hcontains (hput ho).1

/-- Building a snapshot stores its record, which is not counted. -/
lemma GuardInv.build (h : GuardInv src ms)
    (hb : ms.buildSnapshot src n = .ok (data, record, src')) : GuardInv src' ms := by
  obtain ⟨-, -, -, rfl⟩ := buildSnapshot_ok hb
  obtain ⟨bootstrap, hp⟩ := h.persisted
  have hprimary : ms.range.ns.primaryCf ≠ .Applied := by cases ms.range.ns <;> decide
  have hsame : ∀ {c}, c ≠ .Applied → src.applyBatch
      [WriteOp.put .Applied (snapshotKey ms.group) (.Snapshot record)] c = src c := by
    intro c hc
    rw [KvStore.applyBatch_cf]
    simp [WriteOp.put, hc.symm]
  refine h.of_same rfl (hsame hprimary) (hsame (by decide)) rfl h.depth rfl
    (hp.of_get_eq fun s hs => ?_)
  rw [MetaStore.get, KvStore.applyBatch_cf]
  refine OrdMap.get_writeAll_of_notMem fun hmem => ?_
  simp only [WriteOp.put, KvStore.on_cons, KvStore.on_nil, if_true, List.append_nil,
    List.map_singleton, List.mem_singleton, snapshotKey, bookkeepingKey_inj] at hmem
  rw [hmem.2] at hs
  revert hs
  decide

/-- A snapshot of a true guard. -/
def TakenFrom (range : PartitionRange) (record : SnapshotMeta) (data : SnapshotData) : Prop :=
  ∃ src ms n src', GuardInv src ms ∧ ms.range = range
    ∧ ms.buildSnapshot src n = .ok (data, record, src')

/-- **An install brings the source's truth along**, if the ranges agree. -/
theorem GuardInv.install (h : GuardInv store m) (htaken : TakenFrom m.range record data)
    (hmodest' : Modest (m.installSnapshot store record data).1 m.range) :
    GuardInv (m.installSnapshot store record data).1 (m.installSnapshot store record data).2 := by
  obtain ⟨src, ms, n, src', hsrc, hrange, hb⟩ := htaken
  obtain ⟨bootstrap, hp⟩ := h.persisted
  obtain ⟨bootstrap', hps⟩ := hsrc.persisted
  obtain ⟨hguard, hseq, hentries, -⟩ := buildSnapshot_ok hb
  have hget : ∀ {c}, c = m.range.ns.primaryCf ∨ c = .Delq → ∀ key,
      MetaStore.get (m.installSnapshot store record data).1 c key
        = if m.range.contains key then src.get c key else store.get c key :=
    fun hc key => get_installSnapshot hb hsrc.placed h.placed hrange hc key
  have hplaced : Placed (m.installSnapshot store record data).1 m.range := by
    refine h.placed.of_puts ?_
    intro c hc key v hkey
    rw [hget hc] at hkey
    split_ifs at hkey with hcontains
    · obtain ⟨b, k, rfl⟩ := hsrc.placed.keyed (hrange ▸ hc) hkey
      refine Or.inr ⟨b, k, rfl, ?_⟩
      rintro rfl
      rw [← hrange]
      exact hsrc.placed.sided hkey (hrange ▸ hcontains)
    · exact Or.inl hkey
  refine ⟨?_, hplaced.toNat_countDelqEntries hmodest'.2, ⟨bootstrap, ?_⟩, hplaced, ?_⟩
  · have hcounters : (m.installSnapshot store record data).2.guard.counters
        = ms.guard.counters := by
      rw [hps.guard] at hguard
      simp only [Prod.mk.injEq] at hguard
      obtain ⟨h1, h2, h3⟩ := hguard
      simp only [PartitionGuard.counters, ← h1, ← h2, ← h3]
      rfl
    have hrange' : (m.installSnapshot store record data).2.range = m.range := rfl
    rw [hcounters, hsrc.counters, hrange', hrange, liveAccount_eq, liveAccount_eq]
    refine accountOf_congr fun key => ?_
    rw [hget (Or.inl rfl)]
    split_ifs <;> rfl
  · refine persisted_installSnapshot hp record ?_
    rintro ⟨c, key, v⟩ he rfl
    have hmem := ((hentries _ _ _).mp he).2.1.1
    revert hmem
    cases ms.range.ns <;> decide
  · intro b k q i hin hstored
    have hin' : m.range.contains (delqKey b k q i) = true := hin
    rw [hget (Or.inr rfl), if_pos hin'] at hstored
    have hnext : (m.installSnapshot store record data).2.delqNext = ms.delqNext :=
      hseq.trans hps.delqSeq
    rw [hnext]
    exact hsrc.below (hrange ▸ hin') hstored

end Snapshot

/-! ## The replicas of a group -/

/-- The replicas of a group, and the snapshots that have been built, with the range each was built
over. -/
structure Replicas (ι : Type) where
  at_ : ι → MetaStore × Machine
  taken : List (PartitionRange × SnapshotMeta × SnapshotData)

/-- A replica applies an entry, builds a snapshot, or installs one that was built. -/
inductive ReplicaStep (ι : Type)
  | apply (i : ι) (entry : Entry) (last : Bool)
  | build (i : ι) (n : UInt64)
  | install (i : ι) (k : ℕ)

namespace Replicas

variable {ι : Type} [DecidableEq ι]

def step (blake3 : Bytes → BitVec 256) (s : Replicas ι) : ReplicaStep ι → Replicas ι
  | .apply i entry last =>
    { s with at_ := Function.update s.at_ i (Machine.step blake3 (s.at_ i) (entry, last)) }
  | .build i n =>
    match (s.at_ i).2.buildSnapshot (s.at_ i).1 n with
    | .error _ => s
    | .ok (data, record, store) =>
      { at_ := Function.update s.at_ i (store, (s.at_ i).2)
        taken := s.taken ++ [((s.at_ i).2.range, record, data)] }
  | .install i k =>
    match s.taken[k]? with
    | none => s
    | some t =>
      { s with
        at_ := Function.update s.at_ i
          ((s.at_ i).2.installSnapshot (s.at_ i).1 t.2.1 t.2.2) }

/-- The condition on a step: entries are countable where they are applied, and a snapshot is
installed over the range it was built over. -/
def Counted (s : Replicas ι) : ReplicaStep ι → Prop
  | .apply i entry _ => (s.at_ i).2.Counts (s.at_ i).1 entry
  | .build _ _ => True
  | .install i k => ∀ t ∈ s.taken[k]?, t.1 = (s.at_ i).2.range

instance (s : Replicas ι) (a : ReplicaStep ι) : Decidable (s.Counted a) := by
  cases a with
  | apply i entry last => exact inferInstanceAs (Decidable (Machine.Counts _ _ _))
  | build i n => exact inferInstanceAs (Decidable True)
  | install i k =>
    unfold Counted
    cases s.taken[k]? <;> infer_instance

/-- Every replica holds sums that fit the counters. -/
def AllModest (s : Replicas ι) : Prop := ∀ i, Modest (s.at_ i).1 (s.at_ i).2.range

instance [Fintype ι] (s : Replicas ι) : Decidable s.AllModest := Fintype.decidableForallFintype

/-- Every replica satisfies the invariant, and so did the sources of all snapshots. -/
structure Inv (s : Replicas ι) : Prop where
  replica : ∀ i, GuardInv (s.at_ i).1 (s.at_ i).2
  taken : ∀ t ∈ s.taken, TakenFrom t.1 t.2.1 t.2.2

variable {r : MetaStore × Machine}

/-- A replica that moves to a state with the invariant. -/
lemma Inv.update {s : Replicas ι} (h : s.Inv) {i : ι} (hr : GuardInv r.1 r.2) (j : ι) :
    GuardInv (Function.update s.at_ i r j).1 (Function.update s.at_ i r j).2 := by
  by_cases hj : j = i
  · subst hj
    rw [Function.update_self]
    exact hr
  · rw [Function.update_of_ne hj]
    exact h.replica j

/-- **A counted step keeps the invariant.** -/
theorem Inv.step {blake3 : Bytes → BitVec 256} {s : Replicas ι} {a : ReplicaStep ι} (h : s.Inv)
    (hcounted : s.Counted a) (hmodest : s.AllModest) (hmodest' : (s.step blake3 a).AllModest) :
    (s.step blake3 a).Inv := by
  cases a with
  | apply i entry last =>
    refine ⟨h.update ?_, h.taken⟩
    have hafter := hmodest' i
    simp only [Replicas.step, Function.update_self] at hafter
    rcases Machine.step_cases blake3 (s.at_ i) (entry, last) with
      ⟨hstep, -⟩ | ⟨ops, m', heff, hstep⟩
    · rw [hstep]
      exact h.replica i
    · rw [hstep] at hafter ⊢
      rw [Machine.regauge_range] at hafter
      exact heff.guardInv (h.replica i) hcounted (hmodest i) last hafter
  | build i n =>
    cases hb : (s.at_ i).2.buildSnapshot (s.at_ i).1 n with
    | error e =>
      simp only [Replicas.step, hb]
      exact h
    | ok r =>
      obtain ⟨data, record, store⟩ := r
      simp only [Replicas.step, hb]
      refine ⟨h.update ((h.replica i).build hb), ?_⟩
      · intro t ht
        rcases List.mem_append.mp ht with ht | ht
        · exact h.taken t ht
        · obtain rfl := List.mem_singleton.mp ht
          exact ⟨_, _, _, _, h.replica i, rfl, hb⟩
  | install i k =>
    cases hk : s.taken[k]? with
    | none =>
      simp only [Replicas.step, hk]
      exact h
    | some t =>
      have hrange : t.1 = (s.at_ i).2.range := hcounted t hk
      have hafter := hmodest' i
      simp only [Replicas.step, hk, Function.update_self] at hafter ⊢
      refine ⟨h.update ?_, h.taken⟩
      have htaken := h.taken t (List.mem_of_getElem? hk)
      rw [hrange] at htaken
      exact (h.replica i).install htaken hafter

/-- A replica as its group starts: rebuilt from records that count nothing, over an engine that
holds nothing to count in its range. -/
def Started (r : MetaStore × Machine) : Prop :=
  (∃ bootstrap, Machine.new r.1 r.2.group bootstrap = .ok r.2)
    ∧ decodeGuardRecord (r.1.get .Applied (guardKey r.2.group)) = (0, 0, 0)
    ∧ Placed r.1 r.2.range ∧ liveAccount r.1 r.2.range = 0 ∧ queueDepth r.1 r.2.range = 0

lemma Started.guardInv (h : Started r) : GuardInv r.1 r.2 := by
  obtain ⟨⟨bootstrap, hnew⟩, hrecord, hplaced, hlive, hdepth⟩ := h
  have hp := Persisted.of_new hnew
  have hguard := hp.guard
  rw [hrecord] at hguard
  simp only [Prod.mk.injEq] at hguard
  obtain ⟨h1, h2, h3⟩ := hguard
  refine ⟨?_, ?_, ⟨bootstrap, hp⟩, hplaced, ?_⟩
  · rw [hlive, PartitionGuard.counters, ← h1, ← h2, ← h3]
    rfl
  · have hsame := congrArg (fun m : Machine => m.guard.delqDepth)
      (Except.ok.inj (hnew.symm.trans hp.new_eq))
    simp only at hsame
    rw [hsame, hplaced.toNat_countDelqEntries (by omega)]
  · intro b k q i hin hget
    obtain ⟨v, hv⟩ := Option.ne_none_iff_exists'.mp hget
    rw [queueDepth, List.length_eq_zero_iff, List.filter_eq_nil_iff] at hdepth
    exact absurd hin (hdepth _ (((r.1 .Delq).mem_toList_iff _ v).mpr hv))

/-- The condition on a step, with the sums before and after it. -/
def Guarded (blake3 : Bytes → BitVec 256) (s : Replicas ι) (a : ReplicaStep ι) : Prop :=
  s.Counted a ∧ s.AllModest ∧ (s.step blake3 a).AllModest

instance [Fintype ι] (blake3 : Bytes → BitVec 256) (s : Replicas ι) (a : ReplicaStep ι) :
    Decidable (Guarded blake3 s a) := instDecidableAnd

end Replicas

/-- **The guard counts what is stored.**  Take any number of replicas of a group, each started with
nothing to count, and any interleaving of entries, snapshot builds and installs on them.  If every
step meets the condition, then in the state reached the guard of every replica, and the record
persisted for it, read the sums over the live records in its range, and the gauge the number of its
pending deletes. -/
theorem guard_counters_true {ι : Type} [DecidableEq ι] (blake3 : Bytes → BitVec 256)
    (s : Replicas ι) (hstart : ∀ i, Replicas.Started (s.at_ i)) (htaken : s.taken = [])
    (steps : List (ReplicaStep ι))
    (h : Along (Replicas.step blake3) (Replicas.Guarded blake3) s steps) :
    ∀ i, GuardTrue ((run (Replicas.step blake3) s steps).at_ i) := by
  have hinv : s.Inv := ⟨fun i => (hstart i).guardInv, by simp [htaken]⟩
  have hend : (run (Replicas.step blake3) s steps).Inv :=
    h.invariant (fun _ _ hs hg => hs.step hg.1 hg.2.1 hg.2.2) hinv
  exact fun i => (hend.replica i).guardTrue

/-- A Put of five inline bytes. -/
def demoInline (key : Bytes) : FlatOp :=
  .Put 1 key
    { size := 5, etag := 0, mtime := 0, storage := .Standard, segCount := 0
      content := .Inline [1, 2, 3, 4, 5]
      http := HttpMeta.default } 0

/-- Two replicas over empty engines. -/
def demoReplicas : Replicas Bool := ⟨fun _ => (KvStore.empty, demoMachine .Flat), []⟩

/-- One replica applies a put and a split beyond it, and sends a snapshot to the other before. -/
theorem guard_counters_true_demo :
    let s := run (Replicas.step fun _ => 0) demoReplicas
      [.apply true ⟨⟨1, 1, 1⟩, .Normal (.Flat (demoInline [0x61]))⟩ true, .build true 0,
        .install false 0,
        .apply false ⟨⟨1, 1, 2⟩, .Normal (.Split ⟨2, 1, [0x6d], [], 0, 1⟩)⟩ true]
    liveAccount (s.at_ false).1 (s.at_ false).2.range = (5, 1, 5) ∧ GuardTrue (s.at_ false) := by
  refine ⟨by decide +kernel, ?_⟩
  refine guard_counters_true (fun _ => 0) demoReplicas (fun i => ?_) rfl _ ?_ false
  · refine ⟨⟨.full .Flat, rfl⟩, rfl, ⟨?_, ?_⟩, rfl, rfl⟩
    · intro c _ key v hget
      cases hget
    · intro b k v hget
      cases hget
  · decide +kernel

/-- `z` holds five bytes and a split at `m` gives it away.  The guard still counts it, in memory and
on disk, although nothing is left in the range. -/
theorem guard_counts_given_away :
    let s := run (Machine.step fun _ => 0) (KvStore.empty, demoMachine .Flat)
      [(⟨⟨1, 1, 1⟩, .Normal (.Flat (demoInline [0x7a]))⟩, true),
        (⟨⟨1, 1, 2⟩, .Normal (.Split ⟨2, 1, [0x6d], [], 0, 1⟩)⟩, true)]
    liveAccount s.1 s.2.range = (0, 0, 0) ∧ s.2.guard.counters = (5, 1, 5)
      ∧ decodeGuardRecord (s.1.get .Applied (guardKey s.2.group)) = (5, 1, 5) := by
  decide +kernel

end Epoch
