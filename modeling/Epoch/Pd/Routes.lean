import Epoch.Pd.State

/-!
# What an entry does to the route table

`RouteChange` lists the ways the partition index can look after an entry: as before, with a new partition,
with a partition split in two, or with one peer of a partition swapped.  `routeChange_next` says that
there are no others, so that an invariant of the route table has four cases.  Two of them are here: records
lie under their own ids (`Keyed.change`), and route epochs do not go back (`Keyed.epoch_le`).
-/

namespace Epoch.Pd

namespace PartitionIndex

variable (index : PartitionIndex)

/-- The index with the partition a creation adds. -/
def withCreated (cmd : CreatePartition) : PartitionIndex :=
  let partition : MetaPartition := ⟨index.nextId, cmd.ns, cmd.start, cmd.stop, cmd.peers, 1⟩
  { index with
    partitions := index.partitions.insert index.nextId partition
    byStart := index.byStart.insert partition.startKey index.nextId
    nextId := index.nextId + 1 }

/-- The upper half of a split. -/
def splitChild (parent : MetaPartition) (boundary : PartitionBound) : MetaPartition :=
  ⟨index.nextId, parent.ns, boundary, parent.stop, parent.peers, 1⟩

/-- The lower half of a split. -/
def narrowed (parent : MetaPartition) (boundary : PartitionBound) : MetaPartition :=
  { parent with stop := boundary, epoch := parent.epoch + 1 }

def withSplit (cmd : SplitPartition) (parent : MetaPartition) : PartitionIndex :=
  { partitions :=
      (index.partitions.insert cmd.parentId (narrowed parent cmd.boundary)).insert index.nextId
        (index.splitChild parent cmd.boundary)
    byStart := index.byStart.insert (index.splitChild parent cmd.boundary).startKey index.nextId
    nextId := index.nextId + 1
    nextInoTag := index.nextInoTag + 1 }

/-- The partition after a swap of peers. -/
def migrated (partition : MetaPartition) (cmd : MigratePartition) : MetaPartition :=
  { partition with
    peers := swapPeer partition.peers cmd.source cmd.target
    epoch := partition.epoch + 1 }

def withMigrated (cmd : MigratePartition) (partition : MetaPartition) : PartitionIndex :=
  { index with
    partitions := index.partitions.insert cmd.partitionId (migrated partition cmd) }

end PartitionIndex

open PartitionIndex in
/-- The route table after an entry. -/
inductive RouteChange (index : PartitionIndex) : PdEntry → PartitionIndex → Prop
  | same (entry : PdEntry) : RouteChange index entry index
  | created (cmd : CreatePartition) (hroom : index.nextId.toNat + 1 < 2 ^ 64) :
      RouteChange index (.CreatePartition cmd) (index.withCreated cmd)
  | split (cmd : SplitPartition) (parent : MetaPartition)
      (hparent : index.get cmd.parentId = some parent)
      (hinside : strictlyInside parent cmd.boundary = true)
      (hroom : index.nextId.toNat + 1 < 2 ^ 64) :
      RouteChange index (.SplitPartition cmd) (index.withSplit cmd parent)
  | migrated (cmd : MigratePartition) (partition : MetaPartition)
      (hget : index.get cmd.partitionId = some partition)
      (hnew : ¬(cmd.target ∈ partition.peers ∧ cmd.source ∉ partition.peers))
      (hpeers : swapPeer partition.peers cmd.source cmd.target ≠ []) :
      RouteChange index (.MigratePartition cmd) (index.withMigrated cmd partition)

namespace PartitionIndex

variable {index : PartitionIndex}

lemma advanceId_ok {nextId : UInt64} (h : index.advanceId = .ok nextId) :
    index.nextId.toNat + 1 < 2 ^ 64 ∧ nextId = index.nextId + 1 := by
  rw [advanceId] at h
  by_cases hroom : index.nextId.toNat + 1 < 2 ^ 64
  · rw [if_pos hroom] at h
    exact ⟨hroom, (Except.ok.inj h).symm⟩
  · rw [if_neg hroom] at h
    cases h

lemma advanceInoTag_ok {nextInoTag : UInt32} (h : index.advanceInoTag = .ok nextInoTag) :
    nextInoTag = index.nextInoTag + 1 := by
  rw [advanceInoTag] at h
  by_cases hroom : index.nextInoTag.toNat + 1 < 2 ^ inoPartitionTagBits
  · rw [if_pos hroom] at h
    exact (Except.ok.inj h).symm
  · rw [if_neg hroom] at h
    cases h

lemma toNat_nextId_succ (hroom : index.nextId.toNat + 1 < 2 ^ 64) :
    (index.nextId + 1).toNat = index.nextId.toNat + 1 := by
  rw [UInt64.toNat_add]
  exact Nat.mod_eq_of_lt hroom

lemma routeChange_create {cmd : CreatePartition} {r : PartitionId × PartitionIndex}
    (h : index.applyCreate cmd = .ok r) : RouteChange index (.CreatePartition cmd) r.2 := by
  rw [applyCreate] at h
  cases hfind : index.list.find? fun p => p.ns = cmd.ns ∧ p.start = cmd.start ∧ p.stop = cmd.stop with
  | some existing =>
    rw [hfind] at h
    cases h
    exact .same _
  | none =>
    rw [hfind] at h
    obtain ⟨nextId, hnext, rfl⟩ := map_eq_ok h
    obtain ⟨hroom, rfl⟩ := advanceId_ok hnext
    exact .created cmd hroom

lemma routeChange_split {cmd : SplitPartition}
    {r : Option (PartitionId × UInt32) × PartitionIndex} (h : index.applySplit cmd = .ok r) :
    RouteChange index (.SplitPartition cmd) r.2 := by
  rw [applySplit] at h
  cases hparent : index.partitions.get cmd.parentId with
  | none =>
    rw [hparent] at h
    cases h
    exact .same _
  | some parent =>
    rw [hparent] at h
    by_cases hinside : strictlyInside parent cmd.boundary = true
    · simp only [hinside, Bool.not_true, Bool.false_eq_true, if_false] at h
      cases hnext : index.advanceId with
      | error err =>
        rw [hnext] at h
        cases h
      | ok nextId =>
        rw [hnext] at h
        obtain ⟨nextInoTag, htag, rfl⟩ := map_eq_ok h
        obtain ⟨hroom, rfl⟩ := advanceId_ok hnext
        rw [advanceInoTag_ok htag]
        exact .split cmd parent hparent hinside hroom
    · simp only [hinside, Bool.not_false, if_true] at h
      cases h
      exact .same _

lemma routeChange_migrate (cmd : MigratePartition) :
    RouteChange index (.MigratePartition cmd) (index.applyMigrate cmd).2 := by
  rw [applyMigrate]
  cases hget : index.partitions.get cmd.partitionId with
  | none => exact .same _
  | some partition =>
    simp only
    by_cases hreplay : cmd.target ∈ partition.peers ∧ cmd.source ∉ partition.peers
    · rw [if_pos hreplay]
      exact .same _
    · rw [if_neg hreplay]
      by_cases hempty : swapPeer partition.peers cmd.source cmd.target = []
      · rw [if_pos hempty]
        exact .same _
      · rw [if_neg hempty]
        exact .migrated cmd partition hget hreplay hempty

end PartitionIndex

open PartitionIndex in
lemma routeChange_applyCommand {state : PdState} {entry : PdEntry} {r : ApplyResult × PdState}
    (h : state.applyCommand entry = .ok r) : RouteChange state.partitions entry r.2.partitions := by
  cases entry with
  | CreatePartition cmd =>
    simp only [PdState.applyCommand] at h
    by_cases hpeers : state.metaPeers cmd.peers = true
    · simp only [hpeers, Bool.not_true, Bool.false_eq_true, if_false] at h
      obtain ⟨created, hcreate, rfl⟩ := map_eq_ok h
      exact routeChange_create hcreate
    · simp only [hpeers, Bool.not_false, if_true] at h
      cases h
      exact .same _
  | SplitPartition cmd =>
    obtain ⟨⟨child, partitions⟩, hsplit, rfl⟩ := map_eq_ok h
    cases child <;> exact routeChange_split hsplit
  | MigratePartition cmd =>
    simp only [PdState.applyCommand] at h
    cases hpeers : (state.partitions.applyMigrate cmd).1 <;>
      (rw [hpeers] at h; cases h; exact routeChange_migrate cmd)
  | _ =>
    rw [(PdState.untouched_applyCommand h).partitions (by simp [PdEntry.touches])]
    exact .same _

/-- These are all the changes of the route table. -/
theorem routeChange_next (state : PdState) (entry : PdEntry) :
    RouteChange state.partitions entry (state.next entry).partitions := by
  rcases state.next_cases entry with hsame | ⟨result, hok⟩
  · rw [hsame]
    exact .same entry
  · exact routeChange_applyCommand hok

/-! ## Ids and epochs -/

/-- Records lie under their own ids, and those are below the next one. -/
structure PartitionIndex.Keyed (index : PartitionIndex) : Prop where
  partitionId : ∀ {id p}, index.get id = some p → p.partitionId = id
  allocated : ∀ {id p}, index.get id = some p → id.toNat < index.nextId.toNat

section Keyed

open PartitionIndex

variable {index index' : PartitionIndex} {entry : PdEntry}

lemma keyed_new : PartitionIndex.new.Keyed := by
  constructor <;> intro id p h <;> exact absurd h (by simp [PartitionIndex.new, PartitionIndex.get])

/-- No record lies under the next id. -/
lemma PartitionIndex.Keyed.get_nextId (h : index.Keyed) : index.get index.nextId = none := by
  cases hget : index.get index.nextId with
  | none => rfl
  | some p => exact absurd (h.allocated hget) (lt_irrefl _)

lemma PartitionIndex.Keyed.change (h : index.Keyed) (hchange : RouteChange index entry index') :
    index'.Keyed := by
  cases hchange with
  | same => exact h
  | created cmd hroom =>
    constructor <;> intro id p hget
    all_goals
      simp only [PartitionIndex.get, PartitionIndex.withCreated, OrdMap.get_insert] at hget ⊢
      split_ifs at hget with hid
    · exact (congrArg MetaPartition.partitionId (Option.some.inj hget)).symm.trans hid
    · exact h.partitionId hget
    · rw [PartitionIndex.toNat_nextId_succ hroom, ← hid]
      omega
    · rw [PartitionIndex.toNat_nextId_succ hroom]
      exact (h.allocated hget).trans (Nat.lt_succ_self _)
  | split cmd parent hparent hinside hroom =>
    constructor <;> intro id p hget
    all_goals
      simp only [PartitionIndex.get, PartitionIndex.withSplit, OrdMap.get_insert] at hget ⊢
      split_ifs at hget with hid hpid
    · exact (congrArg MetaPartition.partitionId (Option.some.inj hget)).symm.trans hid
    · exact (congrArg MetaPartition.partitionId (Option.some.inj hget)).symm.trans
        ((h.partitionId hparent).trans hpid)
    · exact h.partitionId hget
    all_goals rw [PartitionIndex.toNat_nextId_succ hroom]
    · rw [← hid]
      omega
    · rw [← hpid]
      exact (h.allocated hparent).trans (Nat.lt_succ_self _)
    · exact (h.allocated hget).trans (Nat.lt_succ_self _)
  | migrated cmd partition hget' hnew hpeers =>
    constructor <;> intro id p hget
    all_goals
      simp only [PartitionIndex.get, PartitionIndex.withMigrated, OrdMap.get_insert] at hget ⊢
      split_ifs at hget with hid
    · exact (congrArg MetaPartition.partitionId (Option.some.inj hget)).symm.trans
        ((h.partitionId hget').trans hid)
    · exact h.partitionId hget
    · exact hid ▸ h.allocated hget'
    · exact h.allocated hget

/-- A route epoch with room above it does not go back. -/
lemma PartitionIndex.Keyed.epoch_le (h : index.Keyed) (hchange : RouteChange index entry index')
    {id : PartitionId} {p : MetaPartition} (hget : index.get id = some p)
    (hroom : p.epoch.toNat + 1 < 2 ^ 64) :
    ∃ p', index'.get id = some p' ∧ p.epoch.toNat ≤ p'.epoch.toNat := by
  have hfresh : index.nextId ≠ id := fun heq => by
    have hnone := h.get_nextId
    rw [heq, hget] at hnone
    cases hnone
  have hsucc : (p.epoch + 1).toNat = p.epoch.toNat + 1 := by
    rw [UInt64.toNat_add]
    exact Nat.mod_eq_of_lt hroom
  cases hchange with
  | same => exact ⟨p, hget, le_rfl⟩
  | created cmd _ =>
    exact ⟨p, (OrdMap.get_insert _ _ _ _).trans ((if_neg hfresh).trans hget), le_rfl⟩
  | split cmd parent hparent _ _ =>
    have hrest : (index.withSplit cmd parent).get id
        = (index.partitions.insert cmd.parentId (narrowed parent cmd.boundary)).get id :=
      (OrdMap.get_insert _ _ _ _).trans (if_neg hfresh)
    rw [hrest, OrdMap.get_insert]
    by_cases hid : cmd.parentId = id
    · have hp : parent = p := by
        rw [hid, hget] at hparent
        exact (Option.some.inj hparent).symm
      refine ⟨_, if_pos hid, ?_⟩
      rw [hp]
      show p.epoch.toNat ≤ (p.epoch + 1).toNat
      omega
    · exact ⟨p, (if_neg hid).trans hget, le_rfl⟩
  | migrated cmd partition hget' _ _ =>
    rw [PartitionIndex.get, withMigrated, OrdMap.get_insert]
    by_cases hid : cmd.partitionId = id
    · have hp : partition = p := by
        rw [hid, hget] at hget'
        exact (Option.some.inj hget').symm
      refine ⟨_, if_pos hid, ?_⟩
      rw [hp]
      show p.epoch.toNat ≤ (p.epoch + 1).toNat
      omega
    · exact ⟨p, (if_neg hid).trans hget, le_rfl⟩

end Keyed

end Epoch.Pd
