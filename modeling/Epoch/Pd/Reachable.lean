import Epoch.Pd.State

/-!
# What entries do to disks and slots

Two things are said here once about every entry, for the arguments about placement, repair and tickets.

`WellFormed` holds in every state reached from the empty one: records lie under their own ids and below
the counters, and a plan's id is not the id of a committed chunk.  So a registration never lands on an
existing disk and a commit never on an existing chunk.

`slotAt_next` lists what an entry can do to the slots of committed chunks: nothing, add the slots of one
plan, or re-bind one slot.  A disk keeps its node for good (`disks_next`).
-/

namespace Epoch.Pd

namespace PdState

/-- Records lie under their ids, ids below the counters, plans apart from chunks. -/
structure WellFormed (state : PdState) : Prop where
  disks : ∀ id disk, state.disks.get id = some disk →
    disk.diskId = id ∧ id.toNat < state.disks.nextId.toNat
  chunks : ∀ id chunk, state.chunks.get id = some chunk →
    chunk.chunkId = id ∧ id.toNat < state.chunks.nextId.toNat
  staging : ∀ id staging, state.chunks.staging.get id = some staging →
    staging.chunkId = id ∧ id.toNat < state.chunks.nextId.toNat ∧ state.chunks.get id = none

lemma wellFormed_new : WellFormed new where
  disks := fun id _ h => by simp [new, DiskIndex.new, DiskIndex.get] at h
  chunks := fun id _ h => by simp [new, ChunkIndex.new, ChunkIndex.get] at h
  staging := fun id _ h => by simp [new, ChunkIndex.new] at h

end PdState

lemma advanceCounter_ok {current nextId : UInt32} (h : advanceCounter current = .ok nextId) :
    nextId.toNat = current.toNat + 1 := by
  by_cases hroom : current.toNat + 1 < 2 ^ 32
  · rw [advanceCounter, if_pos hroom, Except.ok.injEq] at h
    rw [← h, UInt32.toNat_add]
    exact Nat.mod_eq_of_lt hroom
  · rw [advanceCounter, if_neg hroom] at h
    cases h

/-! ## Disks -/

namespace DiskIndex

variable {index index' : DiskIndex}

lemma applyRegister_ok {cmd : RegisterDisk} {diskId : DiskId}
    (h : index.applyRegister cmd = .ok (diskId, index')) :
    index' = index ∨ index'.nextId.toNat = index.nextId.toNat + 1 ∧
      index'.disks = index.disks.insert index.nextId
        ⟨index.nextId, cmd.nodeId, cmd.az, cmd.rack, cmd.path, cmd.total, .Normal⟩ := by
  rw [applyRegister] at h
  cases hfind : index.findByNodePath cmd.nodeId cmd.path with
  | some existing =>
    simp only [hfind, Except.ok.injEq, Prod.mk.injEq] at h
    exact Or.inl h.2.symm
  | none =>
    simp only [hfind] at h
    obtain ⟨nextId, hnext, heq⟩ := map_eq_ok h
    simp only [Prod.mk.injEq] at heq
    rw [← heq.2]
    exact Or.inr ⟨advanceCounter_ok hnext, rfl⟩

/-- A status change keeps everything else of a disk. -/
lemma get_applyUpdateStatus (cmd : UpdateDiskStatus) (id : DiskId) :
    ((index.applyUpdateStatus cmd).2.get id = index.get id) ∨
      id = cmd.diskId ∧ ∃ disk, index.get id = some disk ∧ disk.status ≠ cmd.status
        ∧ disk.status.canTransitionTo cmd.status = true
        ∧ (index.applyUpdateStatus cmd).2.get id = some { disk with status := cmd.status } := by
  rcases @get_transition Disk DiskStatus _ Disk.status (fun disk status => { disk with status })
    DiskStatus.canTransitionTo index.disks cmd.diskId cmd.status id with
    hsame | ⟨rfl, disk, hget, hne, hcan, hset⟩
  · exact Or.inl hsame
  · exact Or.inr ⟨rfl, disk, hget, hne, hcan, hset⟩

end DiskIndex

/-! ## Re-binding -/

namespace ChunkIndex

variable {index index' : ChunkIndex}

/-- What an accepted re-bind did. -/
lemma applyRebind_ok {chunkId : ChunkId} {slotIndex : UInt8} {expectedEpoch : UInt32}
    {newDisk : DiskId} {newCreateTs : Int64}
    (h : index.applyRebind chunkId slotIndex expectedEpoch newDisk newCreateTs
      = .ok (none, index')) :
    ∃ chunk slot rebuilt, index.get chunkId = some chunk
      ∧ findSlot chunk.shards slotIndex = some slot ∧ slot.epoch = expectedEpoch
      ∧ rebuilt.index = slotIndex ∧ rebuilt.epoch = slot.epoch + 1 ∧ rebuilt.diskId = newDisk
      ∧ index'.chunks = index.chunks.insert chunk.chunkId
        { chunk with shards := replaceSlot slotIndex rebuilt chunk.shards }
      ∧ index'.staging = index.staging ∧ index'.nextId = index.nextId := by
  rw [applyRebind] at h
  cases hchunk : index.chunks.get chunkId with
  | none => simp [hchunk] at h
  | some chunk =>
    cases hslot : findSlot chunk.shards slotIndex with
    | none => simp [hchunk, hslot] at h
    | some slot =>
      simp only [hchunk, hslot] at h
      by_cases hstale : slot.epoch ≠ expectedEpoch
      · rw [if_pos hstale] at h
        simp at h
      · rw [if_neg hstale] at h
        by_cases hmax : ShardId.maxShardEpoch.toNat < slot.epoch.toNat + 1
        · rw [if_pos hmax] at h
          simp at h
        · rw [if_neg hmax] at h
          obtain ⟨rebuilt, hrebuilt, heq⟩ := map_eq_ok h
          obtain ⟨hindex, hepoch, hdisk, -⟩ := composeSlot_ok hrebuilt
          simp only [Prod.mk.injEq] at heq
          rw [← heq.2]
          exact ⟨chunk, slot, rebuilt, hchunk, hslot, not_not.mp hstale, hindex, hepoch, hdisk,
            rfl, rfl, rfl⟩

lemma applyCreateStaging_ok {cmd : CreateChunkStaging} {chunkId : ChunkId}
    (h : index.applyCreateStaging cmd = .ok (chunkId, index')) :
    chunkId = index.nextId ∧ index'.chunks = index.chunks
      ∧ index'.nextId.toNat = index.nextId.toNat + 1
      ∧ ∃ shards, composeSlots index.nextId cmd.slots cmd.epoch cmd.createTs = .ok shards
        ∧ index'.staging
          = index.staging.insert index.nextId ⟨index.nextId, cmd.codeMode, shards⟩ := by
  rw [applyCreateStaging] at h
  cases hnext : advanceCounter index.nextId with
  | error err => simp [hnext] at h
  | ok nextId =>
    cases hslots : composeSlots index.nextId cmd.slots cmd.epoch cmd.createTs with
    | error err => simp [hnext, hslots] at h
    | ok shards =>
      simp only [hnext, hslots, Except.ok.injEq, Prod.mk.injEq] at h
      obtain ⟨rfl, rfl⟩ := h
      exact ⟨rfl, rfl, advanceCounter_ok hnext, shards, rfl, rfl⟩

lemma applyRebump_ok {cmd : RebumpStaging} {reject : Option RejectReason}
    (h : index.applyRebump cmd = .ok (reject, index')) :
    index'.chunks = index.chunks ∧ index'.nextId = index.nextId
      ∧ (index'.staging = index.staging ∨ ∃ staging shards,
        index.staging.get cmd.chunkId = some staging
        ∧ staging.shards.mapM (rebumpSlot cmd.chunkId) = .ok shards
        ∧ index'.staging = index.staging.insert cmd.chunkId { staging with shards }) := by
  rw [applyRebump] at h
  cases hstaging : index.staging.get cmd.chunkId with
  | none =>
    simp only [hstaging, Except.ok.injEq, Prod.mk.injEq] at h
    obtain ⟨-, rfl⟩ := h
    exact ⟨rfl, rfl, Or.inl rfl⟩
  | some staging =>
    simp only [hstaging] at h
    obtain ⟨shards, hshards, heq⟩ := map_eq_ok h
    simp only [Prod.mk.injEq] at heq
    obtain ⟨-, rfl⟩ := heq
    exact ⟨rfl, rfl, Or.inr ⟨staging, shards, rfl, hshards, rfl⟩⟩

end ChunkIndex

namespace PdState

variable {state : PdState}

/-- The entries that re-bind a slot, with the slot and its new disk. -/
def rebinds : PdEntry → Option (ChunkId × UInt8 × DiskId)
  | .CommitShardMapping cmd => some (cmd.chunkId, cmd.index, cmd.newDisk)
  | .CommitShardRepair cmd => some (cmd.chunkId, cmd.index, cmd.newDisk)
  | _ => none

/-! ## What an entry changes -/

/-- What an entry does to disks, chunks and plans. -/
inductive Change (state state' : PdState) : PdEntry → Prop
  | same {entry : PdEntry} (hdisks : state'.disks = state.disks)
      (hchunks : state'.chunks = state.chunks) : Change state state' entry
  | registered {cmd : RegisterDisk} {id : DiskId}
      (h : state.disks.applyRegister cmd = .ok (id, state'.disks))
      (hchunks : state'.chunks = state.chunks) : Change state state' (.RegisterDisk cmd)
  | marked {cmd : UpdateDiskStatus} (h : state'.disks = (state.disks.applyUpdateStatus cmd).2)
      (hchunks : state'.chunks = state.chunks) : Change state state' (.UpdateDiskStatus cmd)
  | planned {cmd : CreateChunkStaging} {id : ChunkId} (hdisks : state'.disks = state.disks)
      (h : state.chunks.applyCreateStaging cmd = .ok (id, state'.chunks))
      (hplan : state.chunkPlanReject cmd = none) : Change state state' (.CreateChunkStaging cmd)
  | committed {cmd : CommitChunk} (hdisks : state'.disks = state.disks)
      (h : state'.chunks = (state.chunks.applyCommit cmd).2) : Change state state' (.CommitChunk cmd)
  | rebumped {cmd : RebumpStaging} {reject : Option RejectReason}
      (hdisks : state'.disks = state.disks)
      (h : state.chunks.applyRebump cmd = .ok (reject, state'.chunks)) :
      Change state state' (.RebumpStaging cmd)
  | sealed {cmd : SealChunk} (hdisks : state'.disks = state.disks)
      (h : state'.chunks = (state.chunks.applySealChunk cmd).2) : Change state state' (.SealChunk cmd)
  | rebound {entry : PdEntry} {chunkId : ChunkId} {index : UInt8} {expectedEpoch : UInt32}
      {newDisk : DiskId} {newCreateTs : Int64} (hdisks : state'.disks = state.disks)
      (hentry : rebinds entry = some (chunkId, index, newDisk))
      (haffinity : state.rebindAffinityReject chunkId index newDisk = none)
      (h : state.chunks.applyRebind chunkId index expectedEpoch newDisk newCreateTs
        = .ok (none, state'.chunks)) : Change state state' entry

/-- An accepted re-bind, or none at all. -/
lemma rebound_ok {chunkId : ChunkId} {index : UInt8} {expectedEpoch : UInt32} {newDisk : DiskId}
    {rebind : Except SmError (Option RejectReason × ChunkIndex)} {tickets : ShardRepairIndex}
    {result : ApplyResult} {state' : PdState}
    (h : state.rebound chunkId index expectedEpoch newDisk rebind tickets = .ok (result, state')) :
    state' = state ∨ state.rebindAffinityReject chunkId index newDisk = none
      ∧ result = .ShardRebound (expectedEpoch + 1) ∧ state'.shardRepairs = tickets
      ∧ rebind = .ok (none, state'.chunks) ∧ state'.disks = state.disks := by
  rw [rebound] at h
  cases haff : state.rebindAffinityReject chunkId index newDisk with
  | some reason =>
    simp only [haff, Except.ok.injEq, Prod.mk.injEq] at h
    exact Or.inl h.2.symm
  | none =>
    simp only [haff] at h
    obtain ⟨⟨reject, chunks'⟩, hrebind, heq⟩ := map_eq_ok h
    cases reject with
    | some reason =>
      simp only [Prod.mk.injEq] at heq
      exact Or.inl heq.2.symm
    | none =>
      simp only [Prod.mk.injEq] at heq
      obtain ⟨rfl, rfl⟩ := heq
      exact Or.inr ⟨rfl, rfl, rfl, hrebind, rfl⟩

/-- **Every entry is one of these cases.** -/
theorem change_next (entry : PdEntry) : Change state (state.next entry) entry := by
  rcases state.next_cases entry with hsame | ⟨result, hok⟩
  · rw [hsame]
    exact .same rfl rfl
  · generalize state.next entry = state' at hok
    cases entry with
    | RegisterDisk cmd =>
      simp only [applyCommand] at hok
      split_ifs at hok with hnode
      · rw [← (Prod.mk.inj (Except.ok.inj hok)).2]
        exact .same rfl rfl
      · obtain ⟨⟨diskId, disks⟩, hreg, heq⟩ := map_eq_ok hok
        rw [← (Prod.mk.inj heq).2]
        exact .registered hreg rfl
    | UpdateDiskStatus cmd =>
      rw [← (Prod.mk.inj (Except.ok.inj hok)).2]
      exact .marked rfl rfl
    | CreateChunkStaging cmd =>
      simp only [applyCommand] at hok
      cases hplan : state.chunkPlanReject cmd with
      | some reason =>
        rw [hplan] at hok
        rw [← (Prod.mk.inj (Except.ok.inj hok)).2]
        exact .same rfl rfl
      | none =>
        rw [hplan] at hok
        obtain ⟨⟨chunkId, chunks⟩, hcreate, heq⟩ := map_eq_ok hok
        rw [← (Prod.mk.inj heq).2]
        exact .planned rfl hcreate hplan
    | CommitChunk cmd =>
      rw [← (Prod.mk.inj (Except.ok.inj hok)).2]
      exact .committed rfl rfl
    | RebumpStaging cmd =>
      obtain ⟨⟨reject, chunks⟩, hrebump, heq⟩ := map_eq_ok hok
      rw [← (Prod.mk.inj heq).2]
      exact .rebumped rfl hrebump
    | SealChunk cmd =>
      rw [← (Prod.mk.inj (Except.ok.inj hok)).2]
      exact .sealed rfl rfl
    | CommitShardMapping cmd | CommitShardRepair cmd =>
      simp only [applyCommand] at hok
      split_ifs at hok with hauth
      · rw [← (Prod.mk.inj (Except.ok.inj hok)).2]
        exact .same rfl rfl
      · rcases rebound_ok hok with rfl | ⟨haff, -, -, hrebind, hdisks⟩
        · exact .same rfl rfl
        · exact .rebound hdisks rfl haff hrebind
    | _ =>
      have huntouched := untouched_applyCommand hok
      exact .same (huntouched.disks (by simp [PdEntry.touches]))
        (huntouched.chunks (by simp [PdEntry.touches]))

/-! ## Slots -/

/-- The slot of a committed chunk. -/
def slotAt (state : PdState) (chunkId : ChunkId) (index : UInt8) : Option ShardSlot :=
  (state.chunks.get chunkId).bind fun chunk => findSlot chunk.shards index

/-- One slot was re-bound, nothing else about chunks, plans and disks changed. -/
structure Rebound (state state' : PdState) (chunkId : ChunkId) (index : UInt8) (newDisk : DiskId) :
    Prop where
  slot : ∃ slot rebuilt, state.slotAt chunkId index = some slot ∧ rebuilt.epoch = slot.epoch + 1
    ∧ rebuilt.diskId = newDisk ∧ ∀ c i,
      state'.slotAt c i = if c = chunkId ∧ i = index then some rebuilt else state.slotAt c i
  chunk : ∃ chunk shards, state.chunks.get chunkId = some chunk ∧ state'.chunks.chunks
    = state.chunks.chunks.insert chunk.chunkId { chunk with shards }
  staging : state'.chunks.staging = state.chunks.staging
  nextId : state'.chunks.nextId = state.chunks.nextId
  disks : state'.disks = state.disks

variable {state' : PdState} {chunkId : ChunkId} {index : UInt8} {newDisk : DiskId}

/-- An accepted re-bind re-binds one slot. -/
lemma rebound_of_applyRebind {expectedEpoch : UInt32} {newCreateTs : Int64} (hwf : state.WellFormed)
    (h : state.chunks.applyRebind chunkId index expectedEpoch newDisk newCreateTs
      = .ok (none, state'.chunks)) (hdisks : state'.disks = state.disks) :
    Rebound state state' chunkId index newDisk := by
  obtain ⟨chunk, slot, rebuilt, hchunk, hslot, -, hindex, hepoch, hdisk, hchunks, hstaging, hnext⟩ :=
    ChunkIndex.applyRebind_ok h
  have hid := (hwf.chunks chunkId chunk hchunk).1
  refine ⟨⟨slot, rebuilt, by rw [slotAt, hchunk]; exact hslot, hepoch, hdisk, fun c i => ?_⟩,
    ⟨chunk, _, hchunk, hchunks⟩, hstaging, hnext, hdisks⟩
  rw [slotAt, ChunkIndex.get]
  simp only [hchunks, OrdMap.get_insert, hid]
  by_cases hc : chunkId = c
  · subst hc
    simp only [if_true, Option.bind_some, true_and]
    rw [findSlot_replaceSlot hslot hindex, slotAt, hchunk, Option.bind_some]
  · rw [if_neg hc, if_neg fun hci => hc hci.1.symm]
    rfl

/-! ## Disks over an entry -/

/-- A disk stays, with its node, rack and path. -/
lemma disks_next (hwf : state.WellFormed) (entry : PdEntry) {id : DiskId} {disk : Disk}
    (h : state.disks.get id = some disk) :
    ∃ disk', (state.next entry).disks.get id = some disk' ∧ disk'.nodeId = disk.nodeId
      ∧ disk'.rack = disk.rack
      ∧ ((∀ cmd, entry ≠ .UpdateDiskStatus cmd) → disk' = disk) := by
  cases state.change_next entry with
  | registered hreg =>
    refine ⟨disk, ?_, rfl, rfl, fun _ => rfl⟩
    rcases DiskIndex.applyRegister_ok hreg with hsame | ⟨-, hins⟩
    · rw [hsame, h]
    · have hne : state.disks.nextId ≠ id := by
        intro heq
        have hlt := (hwf.disks id disk h).2
        rw [heq] at hlt
        exact lt_irrefl _ hlt
      rw [DiskIndex.get, hins, OrdMap.get_insert, if_neg hne]
      exact h
  | @marked cmd hdisks =>
    rw [hdisks]
    rcases state.disks.get_applyUpdateStatus cmd id with hsame | ⟨rfl, disk', hget, -, -, hset⟩
    · exact ⟨disk, hsame.trans h, rfl, rfl, fun _ => rfl⟩
    · rw [h, Option.some.injEq] at hget
      subst hget
      exact ⟨_, hset, rfl, rfl, fun hne => absurd rfl (hne _)⟩
  | same hdisks | planned hdisks | committed hdisks | rebumped hdisks | sealed hdisks
  | rebound hdisks => exact ⟨disk, by rw [hdisks, h], rfl, rfl, fun _ => rfl⟩

/-! ## Slots over an entry -/

/-- What an entry does to the slots of committed chunks. -/
inductive SlotStep (state : PdState) (entry : PdEntry) : Prop
  | same (h : ∀ c i, (state.next entry).slotAt c i = state.slotAt c i)
  | committed (chunkId : ChunkId) (staging : StagingChunk) (hentry : entry = .CommitChunk ⟨chunkId⟩)
      (hstaging : state.chunks.staging.get chunkId = some staging)
      (hnew : state.chunks.get chunkId = none)
      (h : ∀ c i, (state.next entry).slotAt c i =
        if c = chunkId then findSlot staging.shards i else state.slotAt c i)
  | rebound (chunkId : ChunkId) (index : UInt8) (newDisk : DiskId)
      (hentry : rebinds entry = some (chunkId, index, newDisk))
      (haffinity : state.rebindAffinityReject chunkId index newDisk = none)
      (h : Rebound state (state.next entry) chunkId index newDisk)

lemma slotAt_congr (h : state'.chunks.chunks = state.chunks.chunks) (c : ChunkId) (i : UInt8) :
    state'.slotAt c i = state.slotAt c i := by
  rw [slotAt, slotAt, ChunkIndex.get, ChunkIndex.get, h]

/-- An entry leaves the slots alone, adds those of one plan, or re-binds one. -/
theorem slotStep (hwf : state.WellFormed) (entry : PdEntry) : SlotStep state entry := by
  cases state.change_next entry with
  | same _ hchunks | registered _ hchunks | marked _ hchunks =>
    exact .same (slotAt_congr (by rw [hchunks]))
  | planned _ h => exact .same (slotAt_congr (ChunkIndex.applyCreateStaging_ok h).2.1)
  | @committed cmd _ hchunks =>
    cases hstaging : state.chunks.staging.get cmd.chunkId with
    | none =>
      refine .same (slotAt_congr ?_)
      simp [hchunks, ChunkIndex.applyCommit, hstaging]
    | some staging =>
      obtain ⟨hid, -, hnew⟩ := hwf.staging cmd.chunkId staging hstaging
      refine .committed cmd.chunkId staging rfl hstaging hnew fun c i => ?_
      rw [slotAt, ChunkIndex.get, hchunks, ChunkIndex.applyCommit]
      simp only [hstaging, OrdMap.get_insert, hid]
      by_cases hc : cmd.chunkId = c
      · rw [if_pos hc, if_pos hc.symm]
        rfl
      · rw [if_neg hc, if_neg (Ne.symm hc)]
        rfl
  | rebumped _ h => exact .same (slotAt_congr (ChunkIndex.applyRebump_ok h).1)
  | @sealed cmd _ hchunks =>
    refine .same fun c i => ?_
    rw [slotAt, slotAt, ChunkIndex.get, ChunkIndex.get, hchunks, ChunkIndex.applySealChunk]
    cases hchunk : state.chunks.chunks.get cmd.chunkId with
    | none => rfl
    | some chunk =>
      cases hstatus : chunk.status with
      | Writable | Full =>
        simp only [hstatus, OrdMap.get_insert]
        by_cases hc : cmd.chunkId = c
        · rw [if_pos hc, ← hc, hchunk]
          rfl
        · rw [if_neg hc]
      | Sealed | Migrating | Broken => simp only [hstatus]
  | rebound hdisks hentry haff h =>
    exact .rebound _ _ _ hentry haff (rebound_of_applyRebind hwf h hdisks)

/-! ## Well-formedness over an entry -/

/-- Well-formedness reads disks, chunks and plans only. -/
lemma WellFormed.congr (hwf : state.WellFormed) (hdisks : state'.disks = state.disks)
    (hchunks : state'.chunks = state.chunks) :
    state'.WellFormed := by
  refine ⟨?_, ?_, ?_⟩
  · rw [hdisks]
    exact hwf.disks
  · rw [hchunks]
    exact hwf.chunks
  · rw [hchunks]
    exact hwf.staging

lemma WellFormed.setDisks {disks : DiskIndex} (hwf : state.WellFormed)
    (h : ∀ id disk, disks.get id = some disk → disk.diskId = id ∧ id.toNat < disks.nextId.toNat) :
    WellFormed { state with disks } :=
  ⟨h, hwf.chunks, hwf.staging⟩

/-- New chunks and plans, of the old ids or of the id the counter stood at. -/
lemma WellFormed.setChunks {state' : PdState} (hwf : state.WellFormed)
    (hdisks : state'.disks = state.disks)
    (hchunks : ∀ id chunk, state'.chunks.get id = some chunk →
      chunk.chunkId = id ∧ id.toNat < state'.chunks.nextId.toNat)
    (hstaging : ∀ id staging, state'.chunks.staging.get id = some staging →
      staging.chunkId = id ∧ id.toNat < state'.chunks.nextId.toNat
        ∧ state'.chunks.get id = none) : state'.WellFormed :=
  ⟨by rw [hdisks]; exact hwf.disks, hchunks, hstaging⟩

lemma WellFormed.registerDisk {disks : DiskIndex} {diskId : DiskId} {cmd : RegisterDisk}
    (hwf : state.WellFormed) (h : state.disks.applyRegister cmd = .ok (diskId, disks)) :
    WellFormed { state with disks } := by
  refine hwf.setDisks fun id disk hget => ?_
  rcases DiskIndex.applyRegister_ok h with rfl | ⟨hnext, hins⟩
  · exact hwf.disks id disk hget
  · rw [hnext]
    rw [DiskIndex.get, hins, OrdMap.get_insert] at hget
    by_cases hid : state.disks.nextId = id
    · rw [if_pos hid, Option.some.injEq] at hget
      subst hget
      exact ⟨hid, by rw [← hid]; omega⟩
    · rw [if_neg hid] at hget
      obtain ⟨hown, hlt⟩ := hwf.disks id disk hget
      exact ⟨hown, by omega⟩

lemma WellFormed.updateDiskStatus (hwf : state.WellFormed) (cmd : UpdateDiskStatus) :
    WellFormed { state with disks := (state.disks.applyUpdateStatus cmd).2 } := by
  refine hwf.setDisks fun id disk hget => ?_
  rcases state.disks.get_applyUpdateStatus cmd id with hsame | ⟨-, old, hold, -, -, hset⟩
  · exact hwf.disks id disk (hsame ▸ hget)
  · rw [hset, Option.some.injEq] at hget
    subst hget
    exact hwf.disks id old hold

lemma WellFormed.createStaging {chunks : ChunkIndex} {cmd : CreateChunkStaging}
    (hwf : state.WellFormed) (h : state.chunks.applyCreateStaging cmd = .ok (chunkId, chunks)) :
    WellFormed { state with chunks } := by
  obtain ⟨-, hchunks, hnext, shards, -, hstaging⟩ := ChunkIndex.applyCreateStaging_ok h
  refine hwf.setChunks rfl (fun id chunk hget => ?_) fun id staging hget => ?_
  · rw [ChunkIndex.get, hchunks] at hget
    obtain ⟨hid, hlt⟩ := hwf.chunks id chunk hget
    exact ⟨hid, by rw [hnext]; omega⟩
  · rw [hnext, ChunkIndex.get, hchunks]
    simp only [hstaging, OrdMap.get_insert] at hget
    by_cases hid : state.chunks.nextId = id
    · rw [if_pos hid, Option.some.injEq] at hget
      subst hget
      refine ⟨hid, by rw [← hid]; omega, ?_⟩
      cases hchunk : state.chunks.chunks.get id with
      | none => rfl
      | some chunk =>
        have hlt := (hwf.chunks id chunk hchunk).2
        rw [← hid] at hlt
        exact absurd hlt (lt_irrefl _)
    · rw [if_neg hid] at hget
      obtain ⟨hown, hlt, hnone⟩ := hwf.staging id staging hget
      exact ⟨hown, by omega, hnone⟩

lemma WellFormed.commitChunk (hwf : state.WellFormed) (cmd : CommitChunk) :
    WellFormed { state with chunks := (state.chunks.applyCommit cmd).2 } := by
  cases hplan : state.chunks.staging.get cmd.chunkId with
  | none => simpa [ChunkIndex.applyCommit, hplan] using hwf.congr rfl rfl
  | some plan =>
    obtain ⟨hid, hlt, -⟩ := hwf.staging cmd.chunkId plan hplan
    simp only [ChunkIndex.applyCommit, hplan]
    refine hwf.setChunks rfl (fun id chunk hget => ?_) fun id staging hget => ?_
    · simp only [ChunkIndex.get, OrdMap.get_insert, hid] at hget
      by_cases hc : cmd.chunkId = id
      · rw [if_pos hc, Option.some.injEq] at hget
        subst hget
        exact ⟨hc, by rw [← hc]; exact hlt⟩
      · rw [if_neg hc] at hget
        exact hwf.chunks id chunk hget
    · simp only [OrdMap.get_erase] at hget
      by_cases hc : cmd.chunkId = id
      · rw [if_pos hc] at hget
        cases hget
      · rw [if_neg hc] at hget
        obtain ⟨hown, hlt', hnone⟩ := hwf.staging id staging hget
        refine ⟨hown, hlt', ?_⟩
        simp only [ChunkIndex.get, OrdMap.get_insert, hid]
        rw [if_neg hc]
        exact hnone

lemma WellFormed.rebumpStaging {chunks : ChunkIndex} {reject : Option RejectReason}
    {cmd : RebumpStaging} (hwf : state.WellFormed)
    (h : state.chunks.applyRebump cmd = .ok (reject, chunks)) : WellFormed { state with chunks } := by
  obtain ⟨hchunks, hnext, hstaging⟩ := ChunkIndex.applyRebump_ok h
  refine hwf.setChunks rfl (fun id chunk hget => ?_) fun id staging hget => ?_
  · rw [ChunkIndex.get, hchunks] at hget
    rw [hnext]
    exact hwf.chunks id chunk hget
  · rw [hnext, ChunkIndex.get, hchunks]
    rcases hstaging with hsame | ⟨plan, shards, hplan, -, hins⟩
    · rw [hsame] at hget
      exact hwf.staging id staging hget
    · simp only [hins, OrdMap.get_insert] at hget
      by_cases hid : cmd.chunkId = id
      · rw [if_pos hid, Option.some.injEq] at hget
        subst hget
        rw [← hid]
        exact hwf.staging cmd.chunkId plan hplan
      · rw [if_neg hid] at hget
        exact hwf.staging id staging hget

/-- Chunks keep their ids under an insertion that replaces a chunk by one with the same id. -/
lemma WellFormed.replaceChunk (hwf : state.WellFormed) {id₀ : ChunkId} {old new : Chunk}
    (hold : state.chunks.get id₀ = some old) (hnew : new.chunkId = old.chunkId)
    (hchunks : state'.chunks.chunks = state.chunks.chunks.insert id₀ new)
    (hstaging : state'.chunks.staging = state.chunks.staging)
    (hnext : state'.chunks.nextId = state.chunks.nextId) (hdisks : state'.disks = state.disks) :
    state'.WellFormed := by
  obtain ⟨hid₀, hlt₀⟩ := hwf.chunks id₀ old hold
  refine hwf.setChunks hdisks (fun id chunk hget => ?_) fun id staging hget => ?_
  · rw [ChunkIndex.get, hchunks, OrdMap.get_insert] at hget
    rw [hnext]
    by_cases hid : id₀ = id
    · rw [if_pos hid, Option.some.injEq] at hget
      subst hget
      exact ⟨by rw [hnew, hid₀, hid], by rw [← hid]; exact hlt₀⟩
    · rw [if_neg hid] at hget
      exact hwf.chunks id chunk hget
  · rw [hstaging] at hget
    obtain ⟨hown, hlt, hnone⟩ := hwf.staging id staging hget
    refine ⟨hown, by rw [hnext]; exact hlt, ?_⟩
    have hne : id₀ ≠ id := by
      rintro rfl
      rw [hold] at hnone
      cases hnone
    rw [ChunkIndex.get, hchunks, OrdMap.get_insert, if_neg hne]
    exact hnone

lemma WellFormed.sealChunk (hwf : state.WellFormed) (cmd : SealChunk) :
    WellFormed { state with chunks := (state.chunks.applySealChunk cmd).2 } := by
  cases hchunk : state.chunks.chunks.get cmd.chunkId with
  | none => simpa [ChunkIndex.applySealChunk, hchunk] using hwf.congr rfl rfl
  | some chunk =>
    cases hstatus : chunk.status with
    | Writable | Full =>
      simp only [ChunkIndex.applySealChunk, hchunk, hstatus]
      exact @WellFormed.replaceChunk _ _ hwf _ _ { chunk with status := .Sealed } hchunk rfl rfl
        rfl rfl rfl
    | Sealed | Migrating | Broken =>
      simpa [ChunkIndex.applySealChunk, hchunk, hstatus] using hwf.congr rfl rfl

lemma WellFormed.rebound {entry : PdEntry} (hwf : state.WellFormed)
    (h : Rebound state (state.next entry) chunkId index newDisk) :
    (state.next entry).WellFormed := by
  obtain ⟨chunk, shards, hchunk, hins⟩ := h.chunk
  have hid := (hwf.chunks chunkId chunk hchunk).1
  rw [hid] at hins
  exact hwf.replaceChunk hchunk hid.symm hins h.staging h.nextId h.disks

/-- Every entry keeps the records well-formed. -/
theorem WellFormed.next (hwf : state.WellFormed) (entry : PdEntry) :
    (state.next entry).WellFormed := by
  cases state.change_next entry with
  | same hdisks hchunks => exact hwf.congr hdisks hchunks
  | registered h hchunks => exact (hwf.registerDisk h).congr rfl hchunks
  | marked h hchunks => exact (hwf.updateDiskStatus _).congr h hchunks
  | planned hdisks h => exact (hwf.createStaging h).congr hdisks rfl
  | committed hdisks h => exact (hwf.commitChunk _).congr hdisks h
  | rebumped hdisks h => exact (hwf.rebumpStaging h).congr hdisks rfl
  | sealed hdisks h => exact (hwf.sealChunk _).congr hdisks h
  | rebound hdisks _ _ h => exact hwf.rebound (rebound_of_applyRebind hwf h hdisks)

theorem wellFormed_run (entries : List PdEntry) : (run PdState.next new entries).WellFormed :=
  Along.invariant (P := WellFormed) (G := fun _ _ => True) (fun _ entry h _ => h.next entry)
    wellFormed_new (along_of_forall (fun _ _ _ => trivial) new)

end PdState

end Epoch.Pd
