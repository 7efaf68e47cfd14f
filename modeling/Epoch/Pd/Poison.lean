import Epoch.Pd.State

/-!
# Entries the state machine cannot apply

A committed entry that makes `applyCommand` return an error stops every replica, now and after each
restart.  With the id counters below their maxima there are three such entries: a plan accepted with a start
epoch of more than 24 bits, a re-bump of a plan whose epoch has no room for another jump, and a split
after all ino tags were given out.  `applyCommand_isOk_iff` says that there are no others.

The second one needs nothing but patience: every failed attempt to create the extents of a plan re-bumps
it, and nothing else ends the plan.  `rebump_poisons` runs it to the end.
-/

namespace Epoch.Pd

/-! ## Plans slot by slot -/

lemma mapM_isOk {α β ε : Type} (f : α → Except ε β) (l : List α) :
    (l.mapM f).isOk = true ↔ ∀ a ∈ l, (f a).isOk = true := by
  induction l with
  | nil => simp [pure, Except.pure, Except.isOk, Except.toBool]
  | cons a l ih =>
    rw [List.mapM_cons, List.forall_mem_cons, ← ih]
    cases hfa : f a with
    | error err => simp [bind, Except.bind, Except.isOk, Except.toBool]
    | ok b =>
      cases hl : l.mapM f with
      | error err => simp [bind, Except.bind, Except.isOk, Except.toBool]
      | ok bs => simp [bind, Except.bind, pure, Except.pure, Except.isOk, Except.toBool]

lemma isOk_map {α β ε : Type} (x : Except ε α) (f : α → β) : (x.map f).isOk = x.isOk := by
  cases x <;> rfl

lemma composeSlots_isOk (chunkId : ChunkId) (slots : List SlotPlan) (epoch : UInt32)
    (createTs : Int64) :
    (composeSlots chunkId slots epoch createTs).isOk = true ↔
      (slots ≠ [] → epoch ≤ ShardId.maxShardEpoch) := by
  rw [composeSlots, mapM_isOk]
  simp only [List.mem_insertionSort, composeSlot_isOk]
  constructor
  · intro h hne
    obtain ⟨slot, hslot⟩ := List.exists_mem_of_ne_nil slots hne
    exact h slot hslot
  · intro h slot hslot
    exact h (List.ne_nil_of_mem hslot)

namespace ChunkIndex

lemma rebumpSlot_isOk (chunkId : ChunkId) (slot : ShardSlot) :
    (rebumpSlot chunkId slot).isOk = true ↔
      slot.epoch.toNat + epochJump ≤ ShardId.maxShardEpoch.toNat := by
  have hmax : ShardId.maxShardEpoch.toNat = 16777215 := rfl
  have hjump : epochJump = 3 := rfl
  by_cases hroom : slot.epoch.toNat + epochJump < 2 ^ 32
  · have hadd : (slot.epoch + 3).toNat = slot.epoch.toNat + 3 := by
      rw [UInt32.toNat_add]
      exact Nat.mod_eq_of_lt hroom
    rw [rebumpSlot, if_pos hroom, composeSlot_isOk, UInt32.le_iff_toNat_le, hadd, hjump]
  · rw [rebumpSlot, if_neg hroom]
    refine ⟨fun h => (nomatch h), fun h => absurd ?_ hroom⟩
    omega

variable (index : ChunkIndex)

/-- Re-binding answers every command; the epoch is tested before the slot is composed. -/
lemma applyRebind_isOk (chunkId : ChunkId) (slotIndex : UInt8) (expectedEpoch : UInt32)
    (newDisk : DiskId) (newCreateTs : Int64) :
    (index.applyRebind chunkId slotIndex expectedEpoch newDisk newCreateTs).isOk = true := by
  rw [applyRebind]
  cases hchunk : index.chunks.get chunkId with
  | none => rfl
  | some chunk =>
    cases hslot : findSlot chunk.shards slotIndex with
    | none => simp only [hslot]; rfl
    | some slot =>
      simp only [hslot]
      by_cases hstale : slot.epoch ≠ expectedEpoch
      · rw [if_pos hstale]
        rfl
      · rw [if_neg hstale]
        by_cases hmax : ShardId.maxShardEpoch.toNat < slot.epoch.toNat + 1
        · rw [if_pos hmax]
          rfl
        · have hmaxNat : ShardId.maxShardEpoch.toNat = 16777215 := rfl
          have hadd : (slot.epoch + 1).toNat = slot.epoch.toNat + 1 := by
            rw [UInt32.toNat_add]
            exact Nat.mod_eq_of_lt (by simp only [UInt32.toNat_one]; omega)
          rw [if_neg hmax, isOk_map, composeSlot_isOk, UInt32.le_iff_toNat_le, hadd]
          exact not_lt.mp hmax

end ChunkIndex

namespace PdState

/-! ## Which entries are answered -/

/-- No id counter has reached its maximum. -/
def CountersBelow (state : PdState) : Prop :=
  state.nodes.nextId.toNat + 1 < 2 ^ 32 ∧ state.disks.nextId.toNat + 1 < 2 ^ 32
    ∧ state.chunks.nextId.toNat + 1 < 2 ^ 32 ∧ state.jobs.nextId.toNat + 1 < 2 ^ 32
    ∧ state.writers.nextId.toNat + 1 < 2 ^ 32 ∧ state.buckets.nextId.toNat + 1 < 2 ^ 64
    ∧ state.partitions.nextId.toNat + 1 < 2 ^ 64

/-- The entry needs no shard epoch and no ino tag that does not exist. -/
def Composable (state : PdState) : PdEntry → Prop
  | .CreateChunkStaging cmd =>
    state.chunkPlanReject cmd = none → cmd.slots ≠ [] → cmd.epoch ≤ ShardId.maxShardEpoch
  | .RebumpStaging cmd =>
    ∀ staging ∈ state.chunks.staging.get cmd.chunkId, ∀ slot ∈ staging.shards,
      slot.epoch.toNat + epochJump ≤ ShardId.maxShardEpoch.toNat
  | .SplitPartition cmd =>
    ∀ parent ∈ state.partitions.get cmd.parentId,
      PartitionIndex.strictlyInside parent cmd.boundary = true →
        state.partitions.nextInoTag.toNat + 1 < 2 ^ inoPartitionTagBits
  | _ => True

instance (state : PdState) : Decidable state.CountersBelow :=
  inferInstanceAs (Decidable (_ ∧ _))

lemma advanceCounter_isOk {current : UInt32} (h : current.toNat + 1 < 2 ^ 32) :
    (advanceCounter current).isOk = true := by
  rw [advanceCounter, if_pos h]
  rfl

lemma rebound_isOk (state : PdState) (chunkId : ChunkId) (index : UInt8) (expectedEpoch : UInt32)
    (newDisk : DiskId) {rebind : Except SmError (Option RejectReason × ChunkIndex)}
    (hrebind : rebind.isOk = true) (tickets : ShardRepairIndex) :
    (state.rebound chunkId index expectedEpoch newDisk rebind tickets).isOk = true := by
  rw [rebound]
  cases state.rebindAffinityReject chunkId index newDisk with
  | some reason => rfl
  | none => rwa [isOk_map]

variable {state : PdState}

lemma createStaging_isOk (h : state.chunks.nextId.toNat + 1 < 2 ^ 32) (cmd : CreateChunkStaging) :
    (state.chunks.applyCreateStaging cmd).isOk = true ↔
      (cmd.slots ≠ [] → cmd.epoch ≤ ShardId.maxShardEpoch) := by
  rw [← composeSlots_isOk state.chunks.nextId cmd.slots cmd.epoch cmd.createTs,
    ChunkIndex.applyCreateStaging, advanceCounter, if_pos h]
  cases composeSlots state.chunks.nextId cmd.slots cmd.epoch cmd.createTs <;> rfl

lemma applyRebump_isOk (cmd : RebumpStaging) :
    (state.chunks.applyRebump cmd).isOk = true ↔ Composable state (.RebumpStaging cmd) := by
  rw [ChunkIndex.applyRebump, Composable]
  cases state.chunks.staging.get cmd.chunkId with
  | none => simp [Except.isOk, Except.toBool]
  | some staging =>
    simp only [isOk_map, mapM_isOk, ChunkIndex.rebumpSlot_isOk, Option.mem_some_iff, forall_eq']

lemma applySplit_isOk (h : state.partitions.nextId.toNat + 1 < 2 ^ 64) (cmd : SplitPartition) :
    (state.partitions.applySplit cmd).isOk = true ↔ Composable state (.SplitPartition cmd) := by
  rw [PartitionIndex.applySplit, Composable, PartitionIndex.get]
  cases state.partitions.partitions.get cmd.parentId with
  | none => simp [Except.isOk, Except.toBool]
  | some parent =>
    cases hinside : PartitionIndex.strictlyInside parent cmd.boundary with
    | false => simp [hinside, Except.isOk, Except.toBool]
    | true =>
      have hid : state.partitions.advanceId = .ok (state.partitions.nextId + 1) := by
        rw [PartitionIndex.advanceId, if_pos h]
      by_cases htag : state.partitions.nextInoTag.toNat + 1 < 2 ^ inoPartitionTagBits
      · simp [hinside, hid, PartitionIndex.advanceInoTag, htag, Except.map, Except.isOk,
          Except.toBool]
      · simp [hinside, hid, PartitionIndex.advanceInoTag, htag, Except.map, Except.isOk,
          Except.toBool]

/-- With counters below their maxima an entry is answered unless it asks for an epoch or a tag that
does not exist. -/
theorem applyCommand_isOk_iff (h : state.CountersBelow) (entry : PdEntry) :
    (state.applyCommand entry).isOk = true ↔ state.Composable entry := by
  obtain ⟨hnodes, hdisks, hchunks, hjobs, hwriters, hbuckets, hparts⟩ := h
  cases entry with
  | RegisterNode cmd =>
    simp only [applyCommand, isOk_map, Composable, iff_true, NodeIndex.applyRegister]
    cases state.nodes.findByAddr cmd.addr with
    | some existing => rfl
    | none => rw [isOk_map]; exact advanceCounter_isOk hnodes
  | RegisterDisk cmd =>
    simp only [applyCommand, Composable, iff_true]
    split
    · rfl
    · rw [isOk_map, DiskIndex.applyRegister]
      cases state.disks.findByNodePath cmd.nodeId cmd.path with
      | some existing => rfl
      | none => rw [isOk_map]; exact advanceCounter_isOk hdisks
  | CreateChunkStaging cmd =>
    simp only [applyCommand, Composable]
    cases state.chunkPlanReject cmd with
    | some reason => simp [Except.isOk, Except.toBool]
    | none =>
      rw [isOk_map, createStaging_isOk hchunks]
      exact ⟨fun h _ => h, fun h => h rfl⟩
  | RebumpStaging cmd =>
    simp only [applyCommand, isOk_map]
    exact applyRebump_isOk cmd
  | CreateBucket cmd =>
    simp only [applyCommand, isOk_map, Composable, iff_true, BucketIndex.applyCreate]
    cases state.buckets.names.get cmd.name with
    | some existing => rfl
    | none => rw [if_pos hbuckets]; rfl
  | CreatePartition cmd =>
    simp only [applyCommand, Composable, iff_true]
    split
    · rfl
    · rw [isOk_map, PartitionIndex.applyCreate]
      split
      · rfl
      · rw [isOk_map, PartitionIndex.advanceId, if_pos hparts]
        rfl
  | SplitPartition cmd =>
    simp only [applyCommand, isOk_map]
    exact applySplit_isOk hparts cmd
  | MigratePartition cmd =>
    simp only [applyCommand, Composable, iff_true]
    cases (state.partitions.applyMigrate cmd).1 <;> rfl
  | RegisterWriter cmd =>
    simp only [applyCommand, Composable, iff_true]
    split
    · rfl
    · rw [isOk_map, WriterIndex.applyRegister, isOk_map]
      exact advanceCounter_isOk hwriters
  | Job cmd =>
    simp only [applyCommand, isOk_map, Composable, iff_true]
    cases cmd with
    | Create kind =>
      rw [JobIndex.apply, JobIndex.applyCreate, isOk_map]
      exact advanceCounter_isOk hjobs
    | Assign | RenewLease | AdvanceWatermark | Complete => rfl
  | CommitShardMapping cmd =>
    simp only [applyCommand, Composable, iff_true]
    split
    · rfl
    · exact rebound_isOk state _ _ _ _ (state.chunks.applyRebind_isOk _ _ _ _ _) _
  | ReportShardRepair cmd =>
    simp only [applyCommand, Composable, iff_true]
    cases state.reportedTicket cmd <;> rfl
  | CommitShardRepair cmd =>
    simp only [applyCommand, Composable, iff_true]
    split
    · rfl
    · exact rebound_isOk state _ _ _ _ (state.chunks.applyRebind_isOk _ _ _ _ _) _
  | Noop | UpdateNodeStatus | RemoveNode | UpdateDiskStatus | CommitChunk | SealChunk | PutConfig
  | PutCredential | DeleteConfig | MarkWriterDead => exact ⟨fun _ => trivial, fun _ => rfl⟩

/-- Every entry of a sequence is answered exactly when none asks for an epoch or a tag that does not
exist. -/
theorem entries_answered_iff (entries : List PdEntry)
    (h : Along next (fun state _ => state.CountersBelow) new entries) :
    Along next (fun state entry => (state.applyCommand entry).isOk = true) new entries ↔
      Along next Composable new entries := by
  constructor
  · intro hok
    exact (h.and hok).mono fun state entry ⟨hbelow, hans⟩ =>
      (applyCommand_isOk_iff hbelow entry).mp hans
  · intro hcomp
    exact (h.and hcomp).mono fun state entry ⟨hbelow, hc⟩ =>
      (applyCommand_isOk_iff hbelow entry).mpr hc

/-! ## A plan that is re-bumped until it cannot be -/

/-- One node, one disk on it, and a plan for a chunk with a single shard. -/
def stagedPlan : List PdEntry :=
  [.RegisterNode ⟨"n1:9000", "az1", "r1", .DATA⟩, .RegisterDisk ⟨1, "az1", "r1", "/d1", 1000⟩,
    .CreateChunkStaging ⟨⟨1, 1, 0, 1024, 4096⟩, [⟨0, 1⟩], 5, 0⟩]

/-- Chunk 1 is a plan of one slot with the given epoch. -/
def StagedAt (state : PdState) (epoch : ℕ) : Prop :=
  ∃ staging slot, state.chunks.staging.get 1 = some staging ∧ staging.shards = [slot]
    ∧ slot.epoch.toNat = epoch

lemma rebumpSlot_ok {chunkId : ChunkId} {slot : ShardSlot}
    (h : slot.epoch.toNat + epochJump ≤ ShardId.maxShardEpoch.toNat) :
    ∃ bumped, ChunkIndex.rebumpSlot chunkId slot = .ok bumped
      ∧ bumped.epoch.toNat = slot.epoch.toNat + epochJump := by
  have hok := (ChunkIndex.rebumpSlot_isOk chunkId slot).mpr h
  cases hbump : ChunkIndex.rebumpSlot chunkId slot with
  | error err =>
    rw [hbump] at hok
    cases hok
  | ok bumped =>
    refine ⟨bumped, rfl, ?_⟩
    have hmax : ShardId.maxShardEpoch.toNat = 16777215 := rfl
    have hroom : slot.epoch.toNat + epochJump < 2 ^ 32 := by omega
    rw [ChunkIndex.rebumpSlot, if_pos hroom] at hbump
    rw [(composeSlot_ok hbump).2.1, UInt32.toNat_add]
    exact Nat.mod_eq_of_lt hroom

lemma stagedAt_rebump {state : PdState} {epoch : ℕ} (h : state.StagedAt epoch)
    (hroom : epoch + epochJump ≤ ShardId.maxShardEpoch.toNat) (hbelow : state.CountersBelow) :
    (state.next (.RebumpStaging ⟨1⟩)).StagedAt (epoch + epochJump)
      ∧ (state.next (.RebumpStaging ⟨1⟩)).CountersBelow := by
  obtain ⟨staging, slot, hget, hshards, rfl⟩ := h
  obtain ⟨bumped, hbump, hepoch⟩ := @rebumpSlot_ok 1 slot hroom
  have hnext : state.next (.RebumpStaging ⟨1⟩) = { state with chunks := { state.chunks with
      staging := state.chunks.staging.insert 1 { staging with shards := [bumped] } } } := by
    simp [next, applyCommand, ChunkIndex.applyRebump, hget, hshards, List.mapM_cons, hbump, bind,
      Except.bind, pure, Except.pure, Except.map]
  rw [hnext]
  exact ⟨⟨{ staging with shards := [bumped] }, bumped, by simp, rfl, hepoch⟩, hbelow⟩

lemma stagedAt_replicate {state : PdState} (n : ℕ) {epoch : ℕ} (h : state.StagedAt epoch)
    (hroom : epoch + n * epochJump ≤ ShardId.maxShardEpoch.toNat) (hbelow : state.CountersBelow) :
    let rebumps := List.replicate n (.RebumpStaging ⟨1⟩)
    (run next state rebumps).StagedAt (epoch + n * epochJump)
      ∧ (run next state rebumps).CountersBelow
      ∧ Along next (fun state _ => state.CountersBelow) state rebumps := by
  induction n generalizing state epoch with
  | zero => exact ⟨by simpa using h, hbelow, trivial⟩
  | succ n ih =>
    have hone : epoch + epochJump ≤ ShardId.maxShardEpoch.toNat := by
      rw [Nat.succ_mul] at hroom
      omega
    obtain ⟨hstaged, hbelow'⟩ := stagedAt_rebump h hone hbelow
    obtain ⟨hend, hcount, halong⟩ := ih hstaged (by rw [Nat.succ_mul] at hroom; omega) hbelow'
    have harith : epoch + (n + 1) * epochJump = epoch + epochJump + n * epochJump := by ring
    rw [harith]
    exact ⟨hend, hcount, hbelow, halong⟩

/-- A plan whose extents cannot be created is re-bumped 5592405 times; the next re-bump is an entry that
no replica can apply. -/
theorem rebump_poisons :
    let entries := stagedPlan ++ List.replicate 5592405 (.RebumpStaging ⟨1⟩)
    Along next (fun state _ => state.CountersBelow) new (entries ++ [.RebumpStaging ⟨1⟩])
      ∧ ((run next new entries).applyCommand (.RebumpStaging ⟨1⟩)).isOk = false := by
  intro entries
  have hstart : (run next new stagedPlan).StagedAt 0 := by
    refine ⟨⟨1, ⟨1, 1, 0, 1024, 4096⟩, [⟨0x100000000, 0, 1, ⟨0x100000000, 5⟩⟩]⟩, _, ?_, rfl, rfl⟩
    decide +kernel
  have hroom : 0 + 5592405 * epochJump ≤ ShardId.maxShardEpoch.toNat := by
    rw [show epochJump = 3 from rfl, show ShardId.maxShardEpoch.toNat = 16777215 from rfl]
  obtain ⟨hstaged, hbelow, halong⟩ :=
    stagedAt_replicate 5592405 hstart hroom (by decide +kernel)
  rw [← run_append] at hstaged hbelow
  refine ⟨?_, ?_⟩
  · rw [along_append, along_append]
    exact ⟨⟨by decide +kernel, halong⟩, hbelow, trivial⟩
  · rw [Bool.eq_false_iff, Ne, applyCommand_isOk_iff hbelow]
    intro hcomp
    obtain ⟨staging, slot, hget, hshards, hepoch⟩ := hstaged
    have hle := hcomp staging hget slot (by rw [hshards]; exact List.mem_singleton_self slot)
    rw [hepoch, show epochJump = 3 from rfl,
      show ShardId.maxShardEpoch.toNat = 16777215 from rfl] at hle
    omega

/-- The plan is re-bumped twice and committed. -/
theorem entries_answered_demo :
    let entries := stagedPlan ++ [.RebumpStaging ⟨1⟩, .RebumpStaging ⟨1⟩, .CommitChunk ⟨1⟩]
    Along next (fun state _ => state.CountersBelow) new entries
      ∧ Along next Composable new entries
      ∧ Along next (fun state entry => (state.applyCommand entry).isOk = true) new entries := by
  intro entries
  have hbelow : Along next (fun state _ => state.CountersBelow) new entries := by decide +kernel
  have hok : Along next (fun state entry => (state.applyCommand entry).isOk = true) new entries := by
    decide +kernel
  exact ⟨hbelow, (entries_answered_iff entries hbelow).mp hok, hok⟩

end PdState

end Epoch.Pd
