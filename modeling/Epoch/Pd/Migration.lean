import Epoch.Pd.Plan
import Epoch.Pd.Routes

/-!
# Migrations and the replica set

A migration is planned from one state and applied in a later one.  `apply_migrate` refuses it only when it
looks like a replay, the new node being a peer and the old one not.  When a first move has replaced the old node
in the meantime, a second one planned from the same state finds neither of its nodes among the peers and adds its
target without removing anything (`late_migration_adds_replica`); with both nodes among the peers it removes
without adding.

`replicas_kept` says that this is all that can go wrong: as long as exactly one of the two nodes is a peer
when a migration is applied, a partition keeps distinct peers, as many as it was created with.
-/

namespace Epoch.Pd

/-- A state with the number of peers each partition, or the partition it was split from, began with. -/
structure Tracked where
  state : PdState
  replicas : OrdMap PartitionId ℕ

namespace Tracked

def new : Tracked := ⟨.new, .empty⟩

/-- What is recorded of an entry: an allocated id comes with a creation or a split. -/
def record (t : Tracked) (entry : PdEntry) : OrdMap PartitionId ℕ :=
  let id := t.state.partitions.nextId
  if (t.state.next entry).partitions.nextId = id then t.replicas
  else
    match entry with
    | .CreatePartition cmd => t.replicas.insert id cmd.peers.length
    | .SplitPartition cmd => t.replicas.insert id ((t.replicas.get cmd.parentId).getD 0)
    | _ => t.replicas

def step (t : Tracked) (entry : PdEntry) : Tracked := ⟨t.state.next entry, t.record entry⟩

end Tracked

/-! ## Swapping one peer -/

section SwapPeer

variable {peers : List NodeId} {source target : NodeId}

/-- Exactly one of the two nodes is a peer. -/
def Swaps (peers : List NodeId) (source target : NodeId) : Prop := source ∈ peers ↔ target ∉ peers

instance : Decidable (Swaps peers source target) := inferInstanceAs (Decidable (_ ↔ _))

lemma swapPeer_nodup (h : peers.Nodup) : (PartitionIndex.swapPeer peers source target).Nodup := by
  rw [PartitionIndex.swapPeer]
  by_cases htarget : target ∈ peers
  · rw [if_pos htarget]
    exact h.filter _
  · rw [if_neg htarget]
    refine List.nodup_append.mpr ⟨h.filter _, List.nodup_singleton _, ?_⟩
    intro a ha b hb hab
    rw [List.mem_singleton.mp hb] at hab
    exact htarget (hab ▸ (List.mem_filter.mp ha).1)

lemma length_filter_ne (h : peers.Nodup) (hsource : source ∈ peers) :
    (peers.filter fun peer => peer ≠ source).length + 1 = peers.length := by
  have herase : (peers.filter fun peer => peer ≠ source) = peers.erase source := by
    rw [h.erase_eq_filter]
    exact List.filter_congr fun peer _ => by simp [bne, beq_eq_decide]
  rw [herase, List.length_erase_of_mem hsource]
  have hpos := List.length_pos_of_mem hsource
  omega

lemma length_swapPeer (h : peers.Nodup) (hsource : source ∈ peers) (htarget : target ∉ peers) :
    (PartitionIndex.swapPeer peers source target).length = peers.length := by
  rw [PartitionIndex.swapPeer, if_neg htarget, List.length_append, List.length_singleton]
  exact length_filter_ne h hsource

end SwapPeer

/-! ## The invariant -/

namespace Tracked

variable {t : Tracked}

/-- Peers are distinct and as many as recorded, and what is recorded has an allocated id. -/
structure KeepsReplicas (t : Tracked) : Prop where
  peers : ∀ id p, t.state.partitions.get id = some p →
    p.peers.Nodup ∧ t.replicas.get id = some p.peers.length
  allocated : ∀ id p, t.state.partitions.get id = some p →
    id.toNat < t.state.partitions.nextId.toNat

/-- Creations name distinct peers, as `pick_meta_peers` picks them, and a migration is applied while exactly one
of its nodes is a peer. -/
def SwapsOnePeer (t : Tracked) : PdEntry → Prop
  | .CreatePartition cmd => cmd.peers.Nodup
  | .MigratePartition cmd =>
    ∀ p ∈ t.state.partitions.get cmd.partitionId, Swaps p.peers cmd.source cmd.target
  | _ => True

instance (t : Tracked) (entry : PdEntry) : Decidable (t.SwapsOnePeer entry) := by
  cases entry <;> simp only [SwapsOnePeer] <;> infer_instance

lemma keepsReplicas_new : KeepsReplicas new := by
  constructor <;> intro id p h <;> exact absurd h (by simp [new, PdState.new, PartitionIndex.new, PartitionIndex.get])

/-- Adding a partition under the next id keeps the invariant, if its peers are distinct and counted. -/
lemma KeepsReplicas.insert_next {index : PartitionIndex} {replicas : OrdMap PartitionId ℕ}
    {parts : OrdMap PartitionId MetaPartition} {p : MetaPartition} {count : ℕ}
    (hroom : index.nextId.toNat + 1 < 2 ^ 64)
    (hparts : ∀ id q, parts.get id = some q →
      q.peers.Nodup ∧ replicas.get id = some q.peers.length ∧ id.toNat < index.nextId.toNat)
    (hnodup : p.peers.Nodup) (hcount : count = p.peers.length) (id : PartitionId) (q : MetaPartition)
    (hget : (parts.insert index.nextId p).get id = some q) :
    q.peers.Nodup ∧ (replicas.insert index.nextId count).get id = some q.peers.length
      ∧ id.toNat < (index.nextId + 1).toNat := by
  rw [PartitionIndex.toNat_nextId_succ hroom]
  rw [OrdMap.get_insert] at hget ⊢
  by_cases hid : index.nextId = id
  · rw [if_pos hid] at hget ⊢
    rw [← Option.some.inj hget, hcount, ← hid]
    exact ⟨hnodup, rfl, by omega⟩
  · rw [if_neg hid] at hget ⊢
    obtain ⟨h1, h2, h3⟩ := hparts id q hget
    exact ⟨h1, h2, by omega⟩

theorem KeepsReplicas.step (h : t.KeepsReplicas) {entry : PdEntry} (hswap : t.SwapsOnePeer entry) :
    (t.step entry).KeepsReplicas := by
  have hall : ∀ id q, t.state.partitions.partitions.get id = some q →
      q.peers.Nodup ∧ t.replicas.get id = some q.peers.length
        ∧ id.toNat < t.state.partitions.nextId.toNat :=
    fun id q hq => ⟨(h.peers id q hq).1, (h.peers id q hq).2, h.allocated id q hq⟩
  suffices hnext : ∀ id q, (t.state.next entry).partitions.partitions.get id = some q →
      q.peers.Nodup ∧ (t.record entry).get id = some q.peers.length
        ∧ id.toNat < (t.state.next entry).partitions.nextId.toNat from
    ⟨fun id q hq => ⟨(hnext id q hq).1, (hnext id q hq).2.1⟩, fun id q hq => (hnext id q hq).2.2⟩
  have hchange := routeChange_next t.state entry
  unfold record
  generalize (t.state.next entry).partitions = index' at hchange ⊢
  cases hchange with
  | same => simpa using hall
  | created cmd hroom =>
    have hne : t.state.partitions.nextId + 1 ≠ t.state.partitions.nextId := by simp
    simp only [PartitionIndex.withCreated, hne, if_false]
    exact KeepsReplicas.insert_next hroom hall (show cmd.peers.Nodup from hswap) rfl
  | split cmd parent hparent hinside hroom =>
    have hne : t.state.partitions.nextId + 1 ≠ t.state.partitions.nextId := by simp
    obtain ⟨hnodup, hcount, hlt⟩ := hall cmd.parentId parent hparent
    simp only [PartitionIndex.withSplit, hne, if_false, hcount, Option.getD_some]
    refine KeepsReplicas.insert_next hroom ?_ hnodup rfl
    -- The lower half keeps the parent's peers and count.
    intro id q hq
    rw [OrdMap.get_insert] at hq
    by_cases hid : cmd.parentId = id
    · rw [if_pos hid] at hq
      rw [← Option.some.inj hq, ← hid]
      exact ⟨hnodup, hcount, hlt⟩
    · rw [if_neg hid] at hq
      exact hall id q hq
  | migrated cmd partition hget hnew hpeers =>
    obtain ⟨hnodup, hcount, hlt⟩ := hall cmd.partitionId partition hget
    have hone : Swaps partition.peers cmd.source cmd.target := hswap partition hget
    -- It was no replay, so the old node is the peer.
    have hsource : cmd.source ∈ partition.peers := by
      by_contra hnot
      exact hnew ⟨not_not.mp (fun htarget => hnot (hone.mpr htarget)), hnot⟩
    have htarget : cmd.target ∉ partition.peers := hone.mp hsource
    simp only [PartitionIndex.withMigrated, if_true]
    intro id q hq
    rw [OrdMap.get_insert] at hq
    by_cases hid : cmd.partitionId = id
    · rw [if_pos hid] at hq
      rw [← Option.some.inj hq, ← hid]
      refine ⟨swapPeer_nodup hnodup, ?_, hlt⟩
      rw [hcount]
      exact congrArg some (length_swapPeer hnodup hsource htarget).symm
    · rw [if_neg hid] at hq
      exact hall id q hq

/-- In every run in which each migration is applied while exactly one of its nodes is a peer, every partition has
distinct peers at all times, as many as it or the partition it was split from was created with. -/
theorem replicas_kept (entries : List PdEntry) (h : Along step SwapsOnePeer new entries) :
    ∀ n id p, (run step new (entries.take n)).state.partitions.get id = some p →
      p.peers.Nodup ∧ (run step new (entries.take n)).replicas.get id = some p.peers.length := by
  intro n
  have hinv : (run step new (entries.take n)).KeepsReplicas :=
    Along.invariant (fun t entry ht hswap => ht.step hswap) keepsReplicas_new (h.take n)
  exact hinv.peers

end Tracked

/-! ## Runs -/

/-- Five live metadata nodes, a partition on the first three, and the first of them goes offline. -/
def firstNodeLost : List PdEntry :=
  [.RegisterNode ⟨"n1", "az", "r1", .META⟩, .RegisterNode ⟨"n2", "az", "r2", .META⟩,
    .RegisterNode ⟨"n3", "az", "r3", .META⟩, .RegisterNode ⟨"n4", "az", "r4", .META⟩,
    .RegisterNode ⟨"n5", "az", "r5", .META⟩, .UpdateNodeStatus ⟨1, .Live⟩,
    .UpdateNodeStatus ⟨2, .Live⟩, .UpdateNodeStatus ⟨3, .Live⟩, .UpdateNodeStatus ⟨4, .Live⟩,
    .UpdateNodeStatus ⟨5, .Live⟩,
    .CreatePartition ⟨.Flat, .unboundedStart, .unboundedEnd, [1, 2, 3]⟩,
    .UpdateNodeStatus ⟨1, .Offline⟩]

/-- What a leader with this state plans when one migration may run at a time. -/
def planOf (state : PdState) : List MigrateDecision :=
  planMigrations (gatherLoads state.partitions.list fun _ => none) (gatherMetaNodes state.nodes)
    ⟨0x100000000, 1, 0.2⟩

namespace Tracked

/-- The evacuation 1 → 4 is applied, twice, before the partition is split. -/
def evacuatedOnce : List PdEntry :=
  firstNodeLost ++ [.MigratePartition ⟨1, 1, 4⟩, .MigratePartition ⟨1, 1, 4⟩,
    .SplitPartition ⟨1, .at' 7 [1]⟩]

theorem replicas_kept_demo :
    let t := run step new evacuatedOnce
    t.state.partitions.get 2 = some ⟨2, .Flat, .at' 7 [1], .unboundedEnd, [2, 3, 4], 1⟩
      ∧ ([2, 3, 4] : List NodeId).Nodup ∧ t.replicas.get 2 = some 3 := by
  have hguard : Along step SwapsOnePeer new evacuatedOnce := by decide +kernel
  have hget : (run step new (evacuatedOnce.take evacuatedOnce.length)).state.partitions.get 2
      = some ⟨2, .Flat, .at' 7 [1], .unboundedEnd, [2, 3, 4], 1⟩ := by decide +kernel
  have hkept := replicas_kept evacuatedOnce hguard evacuatedOnce.length 2 _ hget
  rw [List.take_length] at hget hkept
  exact ⟨hget, hkept.1, hkept.2⟩

end Tracked

/-- A leader plans 1 → 4; node 4 goes offline, and the next leader plans 1 → 5 before the first proposal is
applied.  Both are applied: the second finds neither node 1 nor node 5 among the peers and the partition has four. -/
theorem late_migration_adds_replica :
    let before := run PdState.next .new firstNodeLost
    let later := before.next (.UpdateNodeStatus ⟨4, .Offline⟩)
    let after := run PdState.next later [.MigratePartition ⟨1, 1, 4⟩, .MigratePartition ⟨1, 1, 5⟩]
    planOf before = [⟨1, 1, 4, .Evacuate, 1⟩] ∧ planOf later = [⟨1, 1, 5, .Evacuate, 1⟩]
      ∧ (before.partitions.get 1).map MetaPartition.peers = some [1, 2, 3]
      ∧ (after.partitions.get 1).map MetaPartition.peers = some [2, 3, 4, 5] := by
  decide +kernel

end Epoch.Pd
