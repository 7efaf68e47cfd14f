import Epoch.Meta.Enqueue
import Epoch.Meta.Raft.Node

/-!
# Pending deletes are not overwritten

A queue entry is keyed by its coordinate, the sequence number of the op that enqueued it, and a
position.  Sequence numbers are counted per group, and a split hands coordinates to a group whose
counter starts again at zero.  If the queue still holds the parent's entries for those coordinates,
the child reaches their numbers and overwrites them (`delq_put_overwrites`).

`delq_put_fresh` says when that cannot happen.  Entries must reach the group that owns their
coordinate, and a split must find no pending entry in the half it gives away.  The invariant behind
it (`QueueInv`) is about all groups at once: running groups and unstarted children own disjoint
ranges, every pending entry in a group's range carries a number below its counter, and there is
none in the range of an unstarted child.
-/

namespace Epoch

/-- The coordinate of a queue key: its routing key without the number and position. -/
def delqCoord (key : Bytes) : Option (BucketId × Bytes) :=
  (routingKey key).map fun c => (c.1, c.2.take (c.2.length - 12))

lemma delqCoord_delqKey (b : BucketId) (k : Bytes) (s : UInt64) (i : UInt32) :
    delqCoord (delqKey b k s i) = some (b, k) := by
  rw [delqCoord, delqKey, routingKey_flatKey (by decide)]
  simp [delqSeqSuffix]

/-- The coordinate at which an entry enqueues. -/
def Entry.captures (entry : Entry) : Option (BucketId × Bytes) :=
  match entry.payload with
  | .Normal (.Flat op) => some (op.bucket, op.key)
  | .Normal (.Hier op) => op.captures
  | _ => none

/-- A `StoreOps` entry of the deleter removes queue entries and does nothing else. -/
def Entry.dequeues (entry : Entry) : Bool :=
  match entry.payload with
  | .Normal (.StoreOps batch) => batch.all fun op => op.cf = .Delq && op.value.isNone
  | _ => true

/-- The steps of a partition family: its own entries, derivations and dequeues. -/
def NodeStep.isFamilyStep : NodeStep → Bool
  | .apply _ entry _ => entry.dequeues
  | _ => true

/-- No pending entry lies in the half that a split of `range` gives away. -/
def Drained (store : MetaStore) (range : PartitionRange) (op : SplitOp) : Prop :=
  ∀ halves ∈ range.split (op.atBucket, op.atRoutingKey), ∀ e ∈ (store .Delq).toList,
    ∀ at_ ∈ delqCoord e.1, halves.2.containsCoord at_.1 at_.2 = false

instance (store : MetaStore) (range : PartitionRange) (op : SplitOp) :
    Decidable (Drained store range op) := by
  unfold Drained
  infer_instance

/-- The condition on an entry: it enqueues at a coordinate of its group, the counter does not
overflow, no event enqueues 2³² entries, and a split finds the queue of the right half drained. -/
def Machine.Queues (m : Machine) (store : MetaStore) (entry : Entry) : Prop :=
  (∀ at_ ∈ entry.captures, m.range.containsCoord at_.1 at_.2 = true)
    ∧ m.delqNext.toNat + 1 < 2 ^ 64 ∧ (live store).card < 2 ^ 32
    ∧ match entry.payload with
      | .Normal (.Split op) => Drained store m.range op
      | _ => True

instance (m : Machine) (store : MetaStore) : (entry : Entry) → Decidable (m.Queues store entry)
  | ⟨_, .Normal (.Split _)⟩ => inferInstanceAs (Decidable (_ ∧ _ ∧ _ ∧ Drained _ _ _))
  | ⟨_, .Normal (.StoreOps _)⟩ | ⟨_, .Normal (.Flat _)⟩ | ⟨_, .Normal (.Hier _)⟩ | ⟨_, .Blank⟩
  | ⟨_, .Membership _⟩ => inferInstanceAs (Decidable (_ ∧ _ ∧ _ ∧ True))

/-- The condition on a step. -/
def QueueGuard (n : Node) : NodeStep → Prop
  | .apply g entry _ => ∀ m ∈ n.machines g, m.Queues n.store entry
  | _ => True

instance (n : Node) : (a : NodeStep) → Decidable (QueueGuard n a)
  | .apply .. => inferInstanceAs (Decidable (∀ m ∈ _, Machine.Queues m _ _))
  | .startChild _ | .clearPending _ => inferInstanceAs (Decidable True)

/-! ## What an entry enqueues -/

section Enqueue

variable {blake3 : Bytes → BitVec 256} {store : MetaStore} {m m' : Machine} {entry : Entry}
  {ops : List StoreOp}

/-- **An entry enqueues at its own coordinate**, under the counter, which it then moves on.  A
`StoreOps` entry of the deleter puts nothing. -/
lemma Machine.Effect.enqueues (h : Effect blake3 store m entry ops m')
    (hdeq : entry.dequeues = true) :
    Enqueues store entry.captures m.delqNext ops ∧ (entry.captures ≠ none →
        m'.delqNext = m.delqNext + 1)
      ∨ ∀ w ∈ KvStore.on .Delq ops, w.2 = none := by
  cases h with
  | blank hp => exact Or.inr (by simp)
  | idleSplit hp hs => exact Or.inr (by simp)
  | split hp hs => exact Or.inr (by simp [splitRecords, WriteOp.put])
  | membership hp => exact Or.inr (by simp [WriteOp.put])
  | storeOps hp =>
    refine Or.inr fun w hw => ?_
    simp only [Entry.dequeues, hp, List.all_eq_true, Bool.and_eq_true, Option.isNone_iff_eq_none]
      at hdeq
    exact (hdeq _ (KvStore.mem_on.mp hw)).2
  | flat hp ha =>
    refine Or.inl ⟨?_, fun _ => rfl⟩
    have henq := Flat.apply_enqueues ha
    simp only [Entry.captures, hp]
    obtain ⟨ts, cs, hlen, hon⟩ := henq
    exact ⟨ts, cs, hlen, by simp [hon, delqSeqPut, guardPut, WriteOp.put]⟩
  | @hier op out ino' hp ha =>
    refine Or.inl ⟨?_, fun _ => rfl⟩
    have henq := Hier.apply_enqueues ha
    have hcap : entry.captures = op.captures := by simp only [Entry.captures, hp]
    rw [hcap]
    unfold Enqueues at henq ⊢
    simpa [delqSeqPut, inoSeqPut, guardPut, WriteOp.put] using henq

/-- A queue put of an entry. -/
lemma Machine.Effect.delq_put (h : Effect blake3 store m entry ops m')
    (hdeq : entry.dequeues = true) {key : Bytes} {v : MetaValue}
    (hmem : (key, some v) ∈ KvStore.on .Delq ops) :
    ∃ b k i, entry.captures = some (b, k) ∧ key = delqKey b k m.delqNext i
      ∧ m'.delqNext = m.delqNext + 1 := by
  rcases h.enqueues hdeq with ⟨henq, hnext⟩ | hnone
  · obtain ⟨b, k, i, hat, hkey⟩ := henq.mem hmem
    exact ⟨b, k, i, hat, hkey, hnext (by simp [hat])⟩
  · cases hnone _ hmem

/-- The queue puts of an entry have pairwise distinct keys. -/
lemma Machine.Effect.delq_nodup (h : Effect blake3 store m entry ops m')
    (hdeq : entry.dequeues = true) (hcard : (live store).card < 2 ^ 32) :
    (((KvStore.on .Delq ops).filter fun w => w.2.isSome).map Prod.fst).Nodup := by
  rcases h.enqueues hdeq with ⟨henq, -⟩ | hnone
  · exact (henq.nodup hcard).sublist (List.Sublist.map _ List.filter_sublist)
  · have hnil : (KvStore.on .Delq ops).filter (fun w => w.2.isSome) = [] := by
      rw [List.filter_eq_nil_iff]
      intro w hw
      simp [hnone w hw]
    rw [hnil]
    exact List.nodup_nil

end Enqueue

/-- Two ranges share no coordinate. -/
def PartitionRange.Disjoint (r r' : PartitionRange) : Prop :=
  ∀ b k, r.containsCoord b k = true → r'.containsCoord b k = true → False

lemma PartitionRange.Disjoint.symm {r r' : PartitionRange} (h : r.Disjoint r') : r'.Disjoint r :=
  fun b k hr' hr => h b k hr hr'

/-! ## The invariant -/

/-- The ranges of running groups and unstarted children are disjoint, and pending entries lie below
the counter of the group that owns their coordinate. -/
structure QueueInv (n : Node) : Prop where
  disjoint : ∀ {g g' m m'}, g ≠ g' → n.machines g = some m → n.machines g' = some m' →
    m.range.Disjoint m'.range
  below : ∀ {g m}, n.machines g = some m → ∀ {b k s i}, m.range.containsCoord b k = true →
    n.store.get .Delq (delqKey b k s i) ≠ none → s.toNat < m.delqNext.toNat
  child_disjoint : ∀ {parent pending}, n.Awaits parent pending → ∀ {g m}, n.machines g = some m →
    pending.childRange.Disjoint m.range
  child_empty : ∀ {parent pending}, n.Awaits parent pending → ∀ {b k s i},
    pending.childRange.containsCoord b k = true → n.store.get .Delq (delqKey b k s i) = none
  siblings : ∀ {parent parent' pending pending'}, parent ≠ parent' → n.Awaits parent pending →
    n.Awaits parent' pending' → pending.childRange.Disjoint pending'.childRange
  unstarted : ∀ {g}, n.machines g = none → n.store.get .Applied (rangeKey g) = none

/-- What a committed entry of group `m.group` does to the node, as far as the queue is concerned:
the range does not grow, new entries are numbered by the counter, and a new pending record gives
away a drained part of the range. -/
structure Advance (n n' : Node) (m m' : Machine) : Prop where
  ran : n.machines m.group = some m
  machines : ∀ g, n'.machines g = if g = m.group then some m' else n.machines g
  narrows : ∀ {b k}, m'.range.containsCoord b k = true → m.range.containsCoord b k = true
  counter : m.delqNext.toNat ≤ m'.delqNext.toNat
  queue : ∀ {b k s i}, n'.store.get .Delq (delqKey b k s i) ≠ none →
    n.store.get .Delq (delqKey b k s i) ≠ none
      ∨ m.range.containsCoord b k = true ∧ s = m.delqNext ∧ m.delqNext.toNat < m'.delqNext.toNat
  pending : ∀ {parent pending}, readPendingSplit n'.store parent = .ok (some pending) →
    readPendingSplit n.store parent = .ok (some pending)
      ∨ parent = m.group ∧ pending.childRange.Disjoint m'.range
        ∧ (∀ {b k}, pending.childRange.containsCoord b k = true →
            m.range.containsCoord b k = true
              ∧ ∀ s i, n'.store.get .Delq (delqKey b k s i) = none)
  unstarted : ∀ {g}, g ≠ m.group → n'.store.get .Applied (rangeKey g)
    = n.store.get .Applied (rangeKey g)

section Advance

variable {n n' : Node} {m m' : Machine}

/-- A group that runs afterwards ran before, with at least its range and at most its counter. -/
lemma Advance.before (h : Advance n n' m m') {g : UInt64} {m₁ : Machine}
    (hg : n'.machines g = some m₁) :
    ∃ m₀, n.machines g = some m₀ ∧ m₀.delqNext.toNat ≤ m₁.delqNext.toNat
      ∧ ∀ {b k}, m₁.range.containsCoord b k = true → m₀.range.containsCoord b k = true := by
  rw [h.machines] at hg
  split_ifs at hg with heq
  · obtain rfl := Option.some.inj hg
    exact ⟨m, heq ▸ h.ran, h.counter, h.narrows⟩
  · exact ⟨m₁, hg, le_refl _, fun hb => hb⟩

lemma Advance.idle (h : Advance n n' m m') {g : UInt64} (hg : n'.machines g = none) :
    g ≠ m.group ∧ n.machines g = none := by
  rw [h.machines] at hg
  split_ifs at hg with heq
  exact ⟨heq, hg⟩

/-- A child awaited afterwards was awaited before, or has just been split off. -/
lemma Advance.awaits (h : Advance n n' m m') {parent : UInt64} {pending : PendingSplit}
    (ha : n'.Awaits parent pending) :
    n.Awaits parent pending
      ∨ parent = m.group ∧ pending.childRange.Disjoint m'.range
        ∧ (∀ {b k}, pending.childRange.containsCoord b k = true →
            m.range.containsCoord b k = true
              ∧ ∀ s i, n'.store.get .Delq (delqKey b k s i) = none) := by
  rcases h.pending ha.1 with hold | hnew
  · exact Or.inl ⟨hold, (h.idle ha.2).2⟩
  · exact Or.inr hnew

/-- **A committed entry keeps the invariant.** -/
theorem QueueInv.advance (hn : QueueInv n) (h : Advance n n' m m') : QueueInv n' where
  disjoint hne hg hg' b k hb hb' := by
    obtain ⟨m₀, hm₀, -, hr₀⟩ := h.before hg
    obtain ⟨m₁, hm₁, -, hr₁⟩ := h.before hg'
    exact hn.disjoint hne hm₀ hm₁ b k (hr₀ hb) (hr₁ hb')
  below {g m₁} hg {b k s i} hb hget := by
    obtain ⟨m₀, hm₀, hle, hr₀⟩ := h.before hg
    rcases h.queue hget with hold | ⟨hown, rfl, hlt⟩
    · exact lt_of_lt_of_le (hn.below hm₀ (hr₀ hb) hold) hle
    · -- the new entry lies in the range of the group that enqueued it, so this is that group
      by_cases heq : g = m.group
      · rw [h.machines, if_pos heq] at hg
        rw [← Option.some.inj hg]
        exact hlt
      · exact (hn.disjoint heq hm₀ h.ran b k (hr₀ hb) hown).elim
  child_disjoint ha g m₁ hg b k hb hb' := by
    obtain ⟨m₀, hm₀, -, hr₀⟩ := h.before hg
    rcases h.awaits ha with hold | ⟨-, hdis, hin⟩
    · exact hn.child_disjoint hold hm₀ b k hb (hr₀ hb')
    · by_cases heq : g = m.group
      · rw [h.machines, if_pos heq] at hg
        rw [← Option.some.inj hg] at hb'
        exact hdis b k hb hb'
      · exact hn.disjoint heq hm₀ h.ran b k (hr₀ hb') (hin hb).1
  child_empty ha b k s i hb := by
    rcases h.awaits ha with hold | ⟨-, -, hin⟩
    · by_contra hne
      rcases h.queue hne with hget | ⟨hown, -, -⟩
      · exact hget (hn.child_empty hold hb)
      · exact hn.child_disjoint hold h.ran b k hb hown
    · exact (hin hb).2 s i
  siblings hne ha ha' := by
    rcases h.awaits ha with hold | ⟨rfl, -, hin⟩ <;> rcases h.awaits ha' with hold' | ⟨rfl, -, hin'⟩
    · exact hn.siblings hne hold hold'
    · exact fun b k hb hb' => hn.child_disjoint hold h.ran b k hb (hin' hb').1
    · exact fun b k hb hb' => hn.child_disjoint hold' h.ran b k hb' (hin hb).1
    · exact absurd rfl hne
  unstarted hg := by
    obtain ⟨hne, hnone⟩ := h.idle hg
    rw [h.unstarted hne]
    exact hn.unstarted hnone

end Advance

/-! ## The steps -/

section Step

variable {blake3 : Bytes → BitVec 256} {n : Node} {m m' : Machine} {entry : Entry}
  {ops : List StoreOp} {last : Bool}

lemma Entry.dataOnly_of_dequeues (h : entry.dequeues = true) : entry.dataOnly = true := by
  by_cases hstore : ∃ batch, entry.payload = .Normal (.StoreOps batch)
  · obtain ⟨batch, hp⟩ := hstore
    simp only [Entry.dequeues, Entry.dataOnly, hp, List.all_eq_true] at h ⊢
    intro op hop
    have hcf := h op hop
    simp only [Bool.and_eq_true, decide_eq_true_eq] at hcf
    simp [hcf.1]
  · unfold Entry.dataOnly
    split
    · rename_i batch hp
      exact absurd ⟨batch, hp⟩ hstore
    · rfl

/-- The queue after an entry's batch: what was there, or a put of the entry. -/
lemma Machine.Effect.delq_get (h : Effect blake3 n.store m entry ops m')
    (hdeq : entry.dequeues = true) {b : BucketId} {k : Bytes} {s : UInt64} {i : UInt32}
    (hget : MetaStore.get (n.store.applyBatch (ops ++ m'.appliedShare entry last)) .Delq
      (delqKey b k s i) ≠ none) :
    n.store.get .Delq (delqKey b k s i) ≠ none
      ∨ entry.captures = some (b, k) ∧ s = m.delqNext ∧ m'.delqNext = m.delqNext + 1 := by
  obtain ⟨v, hv⟩ := Option.ne_none_iff_exists'.mp hget
  rw [MetaStore.get, KvStore.applyBatch_cf, KvStore.on_append,
    on_appliedShare (by decide), List.append_nil] at hv
  rcases OrdMap.get_writeAll_eq_some hv with hmem | hold
  · obtain ⟨b', k', i', hcap, hkey, hnext⟩ := h.delq_put hdeq hmem
    obtain ⟨rfl, rfl, rfl, rfl⟩ := delqKey_inj.mp hkey
    exact Or.inr ⟨hcap, rfl, hnext⟩
  · exact Or.inl (by rw [MetaStore.get, hold]; simp)

/-- A drained queue holds nothing in the half a split gives away. -/
lemma Drained.get_eq_none {store : MetaStore} {range left right : PartitionRange} {op : SplitOp}
    (h : Drained store range op)
    (hs : range.split (op.atBucket, op.atRoutingKey) = some (left, right)) {b : BucketId} {k : Bytes}
    (hb : right.containsCoord b k = true) (s : UInt64) (i : UInt32) :
    store.get .Delq (delqKey b k s i) = none := by
  cases hget : store.get .Delq (delqKey b k s i) with
  | none => rfl
  | some v =>
    have hout := h _ hs _ (((store .Delq).mem_toList_iff _ v).mpr hget) _
      (delqCoord_delqKey b k s i)
    rw [hb] at hout
    cases hout

lemma toNat_succ {x : UInt64} (h : x.toNat + 1 < 2 ^ 64) : (x + 1).toNat = x.toNat + 1 := by
  rw [UInt64.toNat_add]
  exact Nat.mod_eq_of_lt h

/-- What every guarded entry does to the queue and to its counter. -/
lemma Machine.Effect.queue_advance (h : Effect blake3 n.store m entry ops m')
    (hdeq : entry.dequeues = true) (hq : m.Queues n.store entry) (last : Bool) :
    m.delqNext.toNat ≤ m'.delqNext.toNat
      ∧ ∀ {b k s i}, MetaStore.get (n.store.applyBatch (ops ++ m'.appliedShare entry last)) .Delq
          (delqKey b k s i) ≠ none →
        n.store.get .Delq (delqKey b k s i) ≠ none
          ∨ m.range.containsCoord b k = true ∧ s = m.delqNext
            ∧ m.delqNext.toNat < m'.delqNext.toNat := by
  obtain ⟨hown, hmax, -, -⟩ := hq
  have hsucc := toNat_succ hmax
  refine ⟨?_, fun hget => ?_⟩
  · rcases h.delqNext_eq with heq | heq <;> rw [heq]
    omega
  · rcases h.delq_get hdeq hget with hold | ⟨hcap, hs, hnext⟩
    · exact Or.inl hold
    · exact Or.inr ⟨hown _ hcap, hs, by rw [hnext]; omega⟩

/-- **A guarded entry advances the node.** -/
lemma Machine.Effect.advance (h : Effect blake3 n.store m entry ops m')
    (hm : n.machines m.group = some m) (hdeq : entry.dequeues = true)
    (hq : m.Queues n.store entry) (last : Bool) :
    ∃ m'', Advance n (n.commit m' entry (ops ++ m'.appliedShare entry last)) m m'' := by
  obtain ⟨hcounter, hqueue⟩ := h.queue_advance hdeq hq last
  have hdata := Entry.dataOnly_of_dequeues hdeq
  refine ⟨_, hm, fun g => by rw [Node.commit_machines, h.group_eq.1], ?_, by simpa using hcounter,
    by simpa using @hqueue, ?_, fun hg => h.get_rangeKey hdata last hg⟩
  · intro b k hb
    rw [regauge_range] at hb
    exact h.narrows hb
  · intro parent pending hread
    rcases h.pending_cases hdata hread with hold | ⟨rfl, op, left, hp, hs, -, hm'⟩
    · exact Or.inl hold
    · have hhalves := PartitionRange.split_containsCoord hs
      refine Or.inr ⟨rfl, fun b k hr hl => ?_, fun {b k} hr => ⟨((hhalves b k).2.mp hr).1, ?_⟩⟩
      · rw [regauge_range, hm'] at hl
        exact absurd ((hhalves b k).1.mp hl).2 (not_lt.mpr ((hhalves b k).2.mp hr).2)
      · intro s i
        by_contra hne
        rcases h.delq_get hdeq hne with hold | ⟨hcap, -⟩
        · simp only [Machine.Queues, hp] at hq
          exact hold (hq.2.2.2.get_eq_none hs hr s i)
        · simp [Entry.captures, hp] at hcap

/-- **Starting a child keeps the invariant**: its range is disjoint from all others and holds no
pending entry. -/
lemma QueueInv.startChild (hn : QueueInv n) {parent : UInt64} {pending : PendingSplit}
    (hread : readPendingSplit n.store parent = .ok (some pending))
    (hnone : n.machines pending.childGroup = none)
    (hnew : Machine.new n.store pending.childGroup pending.childRange = .ok m) :
    QueueInv (n.put n.store m) := by
  obtain ⟨hgroup, hrange⟩ := Machine.new_range hnew (hn.unstarted hnone)
  have hawaits : n.Awaits parent pending := ⟨hread, hnone⟩
  have hold : ∀ {parent' pending'}, (n.put n.store m).Awaits parent' pending' →
      parent' ≠ parent ∧ n.Awaits parent' pending' := fun ha => ha.of_start hread hgroup
  refine ⟨?_, ?_, ?_, fun ha => hn.child_empty (hold ha).2, ?_,
    fun hg => hn.unstarted (Node.put_eq_none hg).2⟩
  · intro g g' m₁ m₂ hne hg hg'
    rcases Node.put_eq_some hg with ⟨rfl, rfl⟩ | ⟨-, h₁⟩ <;>
      rcases Node.put_eq_some hg' with ⟨rfl, rfl⟩ | ⟨-, h₂⟩
    · exact absurd rfl hne
    · rw [hrange]
      exact hn.child_disjoint hawaits h₂
    · rw [hrange]
      exact (hn.child_disjoint hawaits h₁).symm
    · exact hn.disjoint hne h₁ h₂
  · intro g m₁ hg b k s i hb hget
    rcases Node.put_eq_some hg with ⟨rfl, rfl⟩ | ⟨-, h₁⟩
    · rw [hrange] at hb
      exact absurd (hn.child_empty hawaits hb) hget
    · exact hn.below h₁ hb hget
  · intro parent' pending' ha g m₁ hg
    obtain ⟨hne, ha'⟩ := hold ha
    rcases Node.put_eq_some hg with ⟨rfl, rfl⟩ | ⟨-, h₁⟩
    · rw [hrange]
      exact hn.siblings hne ha' hawaits
    · exact hn.child_disjoint ha' h₁
  · intro p₁ p₂ pending₁ pending₂ hne ha₁ ha₂
    exact hn.siblings hne (hold ha₁).2 (hold ha₂).2

/-- Clearing a pending record only forgets a child. -/
lemma QueueInv.clearPending (hn : QueueInv n) (parent : UInt64) :
    QueueInv { n with store := clearPendingSplit n.store parent } := by
  refine ⟨hn.disjoint, ?_, fun ha => hn.child_disjoint ha.of_clear, ?_,
    fun hne ha ha' => hn.siblings hne ha.of_clear ha'.of_clear, ?_⟩
  · intro g m₁ hg b k s i hb hget
    rw [Node.get_clearPendingSplit_of_ne _ _ (by decide)] at hget
    exact hn.below hg hb hget
  · intro parent' pending' ha b k s i hb
    rw [Node.get_clearPendingSplit_of_ne _ _ (by decide)]
    exact hn.child_empty ha.of_clear hb
  · intro g hg
    rw [rangeKey, Node.get_clearPendingSplit, if_neg (by simp)]
    exact hn.unstarted hg

/-- **Every guarded step of the family keeps the invariant.** -/
theorem QueueInv.step (hn : QueueInv n) {a : NodeStep} (hfam : a.isFamilyStep = true)
    (hg : QueueGuard n a) : QueueInv (n.step blake3 a) := by
  rcases Node.step_cases blake3 n a with
    ⟨hsame, -⟩ | ⟨g, entry, last, m, ops, response, m', rfl, hm, he, hstep⟩
      | ⟨parent, pending, m, rfl, hread, hnone, hnew, hstep⟩ | ⟨parent, rfl, hstep⟩
  · rw [hsame]
    exact hn
  · rw [hstep]
    obtain rfl := n.group_eq g m hm
    obtain ⟨m'', hadv⟩ := (Machine.entryOps_effect he).advance hm hfam (hg m hm) last
    exact hn.advance hadv
  · rw [hstep]
    exact hn.startChild hread hnone hnew
  · rw [hstep]
    exact hn.clearPending parent

end Step

/-- An engine without queue entries and bookkeeping records. -/
def Fresh (store : MetaStore) : Prop := store .Delq = OrdMap.empty ∧ store .Applied = OrdMap.empty

lemma Fresh.queueInv {store : MetaStore} (h : Fresh store) (m : Machine) :
    QueueInv (Node.running store m) := by
  have hone : ∀ {g m₁}, (Node.running store m).machines g = some m₁ → g = m.group := by
    intro g m₁ hg
    simp only [Node.running, Node.put, Node.idle] at hg
    split_ifs at hg with heq
    exact heq
  have hdelq : ∀ key, (Node.running store m).store.get .Delq key = none := by
    intro key
    show (store .Delq).get key = none
    rw [h.1]
    rfl
  have happlied : ∀ key, (Node.running store m).store.get .Applied key = none := by
    intro key
    show (store .Applied).get key = none
    rw [h.2]
    rfl
  have hawaits : ∀ {parent pending}, ¬ (Node.running store m).Awaits parent pending := by
    rintro parent pending ⟨hread, -⟩
    simp [readPendingSplit, readBookkeeping, happlied] at hread
  refine ⟨?_, ?_, fun ha => absurd ha hawaits, fun ha => absurd ha hawaits,
    fun _ ha => absurd ha hawaits, fun _ => happlied _⟩
  · intro g g' m₁ m₂ hne hg hg'
    exact absurd ((hone hg).trans (hone hg').symm) hne
  · intro g m₁ _ b k s i _ hget
    exact absurd (hdelq _) hget

/-- **Pending deletes are not overwritten.**  In every run of a partition and its split descendants
over one engine, with entries, derivations and dequeues interleaved in any way and every step
meeting the condition, each queue put of an entry's batch targets a key that the engine does not
hold at that moment, and no two of them share a key. -/
theorem delq_put_fresh (blake3 : Bytes → BitVec 256) (store : MetaStore) (hfresh : Fresh store)
    (m₀ : Machine) (steps : List NodeStep)
    (hfam : ∀ a ∈ steps, a.isFamilyStep = true)
    (h : Along (Node.step blake3) QueueGuard (Node.running store m₀) steps)
    (before after : List NodeStep) (g : UInt64) (entry : Entry) (last : Bool)
    (hsteps : steps = before ++ .apply g entry last :: after) :
    let n := run (Node.step blake3) (Node.running store m₀) before
    ∀ m ops response m', n.machines g = some m →
      m.entryOps blake3 n.store entry = .ok (ops, response, m') →
        (∀ key v, (key, some v) ∈ KvStore.on .Delq ops → n.store.get .Delq key = none)
          ∧ (((KvStore.on .Delq ops).filter fun w => w.2.isSome).map Prod.fst).Nodup := by
  intro n m ops response m' hm he
  rw [hsteps] at h hfam
  obtain ⟨hbefore, hguard⟩ := h.middle
  have hinv : QueueInv n :=
    (hbefore.and_forall fun a ha => hfam a (List.mem_append_left _ ha)).invariant
      (fun _ _ hs hg => hs.step hg.1 hg.2) (hfresh.queueInv m₀)
  have hdeq : entry.dequeues = true := hfam (.apply g entry last) (by simp)
  obtain ⟨hown, hmax, hcard, -⟩ := hguard m hm
  have heff := Machine.entryOps_effect he
  refine ⟨fun key v hmem => ?_, heff.delq_nodup hdeq hcard⟩
  obtain ⟨b, k, i, hcap, rfl, -⟩ := heff.delq_put hdeq hmem
  by_contra hne
  exact absurd (hinv.below hm (hown _ hcap) hne) (lt_irrefl _)

/-- The run of `delq_put_overwrites` with a drained queue: `z` is put, deleted, and its slices are
dequeued before the split; the child then enqueues at keys that are free. -/
theorem delq_put_fresh_demo :
    let n := run (Node.step fun _ => 0) (Node.running KvStore.empty (demoMachine .Flat))
      [demoApply (.Flat (demoPut [0x7a] 1)), demoApply (.Flat (.Delete 1 [0x7a] 0)),
        demoApply (.StoreOps [WriteOp.delete .Delq (delqKey 1 [0x7a] 1 0)]), demoSplit [0x6d],
        .startChild 1, .apply 2 ⟨⟨1, 1, 1⟩, .Normal (.Flat (demoPut [0x7a] 1))⟩ true]
    ∃ m ops response m', n.machines 2 = some m
      ∧ m.entryOps (fun _ => 0) n.store ⟨⟨1, 1, 1⟩, .Normal (.Flat (.Delete 1 [0x7a] 0))⟩
        = .ok (ops, response, m')
      ∧ (KvStore.on .Delq ops).length = 1
      ∧ (∀ key v, (key, some v) ∈ KvStore.on .Delq ops → n.store.get .Delq key = none)
      ∧ (((KvStore.on .Delq ops).filter fun w => w.2.isSome).map Prod.fst).Nodup := by
  have hm : (run (Node.step fun _ => 0) (Node.running KvStore.empty (demoMachine .Flat))
      [demoApply (.Flat (demoPut [0x7a] 1)), demoApply (.Flat (.Delete 1 [0x7a] 0)),
        demoApply (.StoreOps [WriteOp.delete .Delq (delqKey 1 [0x7a] 1 0)]), demoSplit [0x6d],
        .startChild 1, .apply 2 ⟨⟨1, 1, 1⟩, .Normal (.Flat (demoPut [0x7a] 1))⟩ true]).machines 2
      = some ⟨2, ⟨.Flat, some (1, [0x6d]), none⟩, ⟨0, 0, 0, 0⟩, 1, 0, 1⟩ := by decide +kernel
  refine ⟨_, _, _, _, hm, rfl, by decide +kernel, ?_⟩
  exact delq_put_fresh (fun _ => 0) KvStore.empty ⟨rfl, rfl⟩ (demoMachine .Flat)
    [demoApply (.Flat (demoPut [0x7a] 1)), demoApply (.Flat (.Delete 1 [0x7a] 0)),
      demoApply (.StoreOps [WriteOp.delete .Delq (delqKey 1 [0x7a] 1 0)]), demoSplit [0x6d],
      .startChild 1, .apply 2 ⟨⟨1, 1, 1⟩, .Normal (.Flat (demoPut [0x7a] 1))⟩ true,
      .apply 2 ⟨⟨1, 1, 1⟩, .Normal (.Flat (.Delete 1 [0x7a] 0))⟩ true]
    (by decide) (by decide +kernel) _ [] 2 _ true rfl _ _ _ _ hm rfl

/-- The parent puts and deletes `z`, which leaves a queue entry numbered 1, and splits at `m`.  The
child starts again at zero, so its own put and delete of `z` reach the same key, where the parent's
slices are still pending. -/
theorem delq_put_overwrites :
    let n := run (Node.step fun _ => 0) (Node.running KvStore.empty (demoMachine .Flat))
      [demoApply (.Flat (demoPut [0x7a] 1)), demoApply (.Flat (.Delete 1 [0x7a] 0)),
        demoSplit [0x6d], .startChild 1,
        .apply 2 ⟨⟨1, 1, 1⟩, .Normal (.Flat (demoPut [0x7a] 1))⟩ true]
    ∃ m ops response m', n.machines 2 = some m
      ∧ m.entryOps (fun _ => 0) n.store ⟨⟨1, 1, 1⟩, .Normal (.Flat (.Delete 1 [0x7a] 0))⟩
        = .ok (ops, response, m')
      ∧ ∃ w ∈ KvStore.on .Delq ops, w.2.isSome = true
        ∧ (n.store.get .Delq w.1).isSome = true := by
  refine ⟨⟨2, ⟨.Flat, some (1, [0x6d]), none⟩, ⟨0, 0, 0, 1⟩, 1, 0, 1⟩, _, _, _, by decide +kernel,
    rfl, ?_⟩
  decide +kernel

end Epoch
