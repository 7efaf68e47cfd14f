import Epoch.Store.ExtentMeta
import Epoch.Pd.Cluster

/-!
# Chunks (`epoch-proto/src/id.rs`, `epoch-pd/src/chunk/{model,manager}.rs`)

A chunk is created in two phases.  `CreateChunkStaging` takes a chunk id and writes the plan with one
slot per shard; after the extents exist `CommitChunk` promotes it.  A plan whose extents could not be
created is re-bumped, which moves the epoch of every slot by `epochJump`.  A committed slot is re-bound
to another disk by `applyRebind`, which moves its epoch by one.

The epoch of a shard id has 24 bits.  `composeSlot` is the one place that checks this, and it answers with
a state-machine error; `applyRebind` tests the bound itself and rejects.
-/

namespace Epoch

/-! ## Shard ids -/

namespace ShardId

def maxShardEpoch : UInt32 := 0xFFFFFF

/-- `none` when the epoch exceeds 24 bits. -/
def tryNew (chunkId : UInt32) (index : UInt8) (epoch : UInt32) : Option ShardId :=
  if maxShardEpoch < epoch then none
  else some ((chunkId.toUInt64 <<< 32) ||| (index.toUInt64 <<< 24) ||| epoch.toUInt64)

def index (shard : ShardId) : UInt8 := ((shard >>> 24) &&& 0xFF).toUInt8

lemma toNat_tryNew {chunkId epoch : UInt32} {i : UInt8} {shard : ShardId}
    (h : tryNew chunkId i epoch = some shard) :
    epoch.toNat < 2 ^ 24 ∧
      shard.toNat = chunkId.toNat * 2 ^ 32 + i.toNat * 2 ^ 24 + epoch.toNat := by
  have hchunk := chunkId.toNat_lt
  have hi := i.toNat_lt
  by_cases hbig : maxShardEpoch < epoch
  · rw [tryNew, if_pos hbig] at h
    cases h
  · rw [tryNew, if_neg hbig, Option.some.injEq] at h
    have hepoch : epoch.toNat < 2 ^ 24 := by
      have hle := UInt32.le_iff_toNat_le.mp (UInt32.not_lt.mp hbig)
      have hmax : maxShardEpoch.toNat = 16777215 := rfl
      omega
    have hhigh : (chunkId.toUInt64 <<< 32).toNat = chunkId.toNat <<< 32 := by
      rw [UInt64.toNat_shiftLeft]
      simp only [UInt32.toNat_toUInt64, UInt64.reduceToNat, Nat.shiftLeft_eq, Nat.reduceMod]
      omega
    have hmid : (i.toUInt64 <<< 24).toNat = i.toNat <<< 24 := by
      rw [UInt64.toNat_shiftLeft]
      simp only [UInt8.toNat_toUInt64, UInt64.reduceToNat, Nat.shiftLeft_eq, Nat.reduceMod]
      omega
    have hlow : i.toNat <<< 24 + epoch.toNat < 2 ^ 32 := by
      rw [Nat.shiftLeft_eq]
      omega
    refine ⟨hepoch, ?_⟩
    rw [← h, UInt64.toNat_or, UInt64.toNat_or, hhigh, hmid, UInt32.toNat_toUInt64, Nat.or_assoc,
      ← Nat.shiftLeft_add_eq_or_of_lt hepoch, ← Nat.shiftLeft_add_eq_or_of_lt hlow,
      Nat.shiftLeft_eq, Nat.shiftLeft_eq]
    omega

lemma index_of_toNat {shard : ShardId} {chunk i e : ℕ} (hi : i < 256) (he : e < 2 ^ 24)
    (h : shard.toNat = chunk * 2 ^ 32 + i * 2 ^ 24 + e) : (index shard).toNat = i := by
  rw [index, UInt64.toNat_toUInt8, UInt64.toNat_and, UInt64.toNat_shiftRight, h]
  simp only [UInt64.reduceToNat, Nat.shiftRight_eq_div_pow, Nat.reduceMod]
  rw [show (255 : ℕ) = 2 ^ 8 - 1 from rfl, Nat.and_two_pow_sub_one_eq_mod]
  omega

end ShardId

lemma testBit_slotMask {i : ℕ} (h : i < 64) :
    (0xFFFFFFFFFF000000 : ℕ).testBit i = decide (24 ≤ i) := by
  interval_cases i <;> decide

lemma toNat_shardPrefix (shard : ShardId) :
    (shardPrefix shard).toNat = shard.toNat / 2 ^ 24 * 2 ^ 24 := by
  have hshard := shard.toNat_lt
  rw [shardPrefix, UInt64.toNat_and]
  apply Nat.eq_of_testBit_eq
  intro i
  rw [Nat.testBit_and, Nat.testBit_mul_two_pow, Nat.testBit_div_two_pow]
  by_cases hi : i < 64
  · rw [show (0xFFFFFFFFFF000000 : UInt64).toNat = 0xFFFFFFFFFF000000 from rfl, testBit_slotMask hi]
    by_cases h24 : 24 ≤ i
    · simp [h24]
    · simp [h24]
  · have hpow : shard.toNat < 2 ^ i :=
      lt_of_lt_of_le hshard (Nat.pow_le_pow_right (by decide) (not_lt.mp hi))
    have h24 : 24 ≤ i := by omega
    simp [Nat.testBit_lt_two_pow hpow, h24]

namespace Pd

abbrev ChunkId := UInt32

/-! ## The chunk model -/

structure CodeMode where
  id : UInt16
  data : UInt8
  parity : UInt8
  stripeSize : UInt32
  blobSize : UInt64
deriving DecidableEq

def CodeMode.shardsTotal (mode : CodeMode) : ℕ := mode.data.toNat + mode.parity.toNat

inductive ChunkStatus
  | Writable
  | Full
  | Sealed
  | Migrating
  | Broken
deriving DecidableEq

structure ShardSlot where
  shardPrefix : UInt64
  epoch : UInt32
  diskId : DiskId
  extentId : ExtentId
deriving DecidableEq

namespace ShardSlot

def shardId (slot : ShardSlot) : ShardId := slot.shardPrefix ||| slot.epoch.toUInt64

def index (slot : ShardSlot) : UInt8 := ShardId.index slot.shardId

end ShardSlot

structure Chunk where
  chunkId : ChunkId
  codeMode : CodeMode
  status : ChunkStatus
  shards : List ShardSlot
deriving DecidableEq

structure StagingChunk where
  chunkId : ChunkId
  codeMode : CodeMode
  shards : List ShardSlot
deriving DecidableEq

structure SlotPlan where
  index : UInt8
  diskId : DiskId
deriving DecidableEq

structure CreateChunkStaging where
  codeMode : CodeMode
  slots : List SlotPlan
  createTs : Int64
  epoch : UInt32
deriving DecidableEq

structure CommitChunk where
  chunkId : ChunkId
deriving DecidableEq

structure SealChunk where
  chunkId : ChunkId
deriving DecidableEq

structure RebumpStaging where
  chunkId : ChunkId
deriving DecidableEq

def epochJump : ℕ := 3

structure CommitShardMapping where
  jobId : UInt32
  chunkId : ChunkId
  index : UInt8
  expectedEpoch : UInt32
  newDisk : DiskId
  newCreateTs : Int64
  committer : NodeId
deriving DecidableEq

/-! ## Slots -/

/-- The loop of `validate_slots` over the plan. -/
def validateLoop (total : ℕ) : Finset UInt8 → List SlotPlan → Option RejectReason
  | _, [] => none
  | seen, slot :: slots =>
    if total ≤ slot.index.toNat ∨ slot.index ∈ seen then some .InvalidChunkPlan
    else validateLoop total (insert slot.index seen) slots

def validateSlots (mode : CodeMode) (slots : List SlotPlan) : Option RejectReason :=
  if slots.length ≠ mode.shardsTotal then some .InvalidChunkPlan
  else validateLoop mode.shardsTotal ∅ slots

def composeSlot (chunkId : ChunkId) (index : UInt8) (epoch : UInt32) (diskId : DiskId)
    (createTs : Int64) : Except SmError ShardSlot :=
  match ShardId.tryNew chunkId index epoch with
  | none => .error ⟨"shard epoch exceeds 24-bit max"⟩
  | some shard => .ok ⟨Epoch.shardPrefix shard, epoch, diskId, ⟨shard, createTs⟩⟩

def composeSlots (chunkId : ChunkId) (slots : List SlotPlan) (epoch : UInt32) (createTs : Int64) :
    Except SmError (List ShardSlot) :=
  (slots.insertionSort fun a b => a.index ≤ b.index).mapM fun slot =>
    composeSlot chunkId slot.index epoch slot.diskId createTs

/-- The epoch-zeroed identity of a slot, which tickets are kept under. -/
def shardPrefix (chunkId : ChunkId) (index : UInt8) : UInt64 :=
  (chunkId.toUInt64 <<< 32) ||| (index.toUInt64 <<< 24)

section ComposeSlot

variable {chunkId : ChunkId} {i : UInt8} {epoch : UInt32} {diskId : DiskId} {createTs : Int64}
  {slot : ShardSlot}

/-- A slot is composed exactly when its epoch has 24 bits. -/
lemma composeSlot_isOk :
    (composeSlot chunkId i epoch diskId createTs).isOk = true ↔ epoch ≤ ShardId.maxShardEpoch := by
  by_cases hbig : ShardId.maxShardEpoch < epoch
  · simp only [composeSlot, ShardId.tryNew, if_pos hbig]
    exact ⟨fun h => (nomatch h), fun h => absurd h (not_le.mpr hbig)⟩
  · simp only [composeSlot, ShardId.tryNew, if_neg hbig]
    exact ⟨fun _ => not_lt.mp hbig, fun _ => rfl⟩

lemma composeSlot_ok (h : composeSlot chunkId i epoch diskId createTs = .ok slot) :
    slot.index = i ∧ slot.epoch = epoch ∧ slot.diskId = diskId
      ∧ slot.extentId.createTs = createTs := by
  cases hnew : ShardId.tryNew chunkId i epoch with
  | none => simp [composeSlot, hnew] at h
  | some shard =>
    simp only [composeSlot, hnew, Except.ok.injEq] at h
    subst h
    refine ⟨?_, rfl, rfl, rfl⟩
    obtain ⟨hepoch, hnat⟩ := ShardId.toNat_tryNew hnew
    have hi := i.toNat_lt
    -- the prefix and the epoch put together are the id the slot was composed from
    have hid : (ShardSlot.shardId ⟨Epoch.shardPrefix shard, epoch, diskId, ⟨shard, createTs⟩⟩).toNat
        = chunkId.toNat * 2 ^ 32 + i.toNat * 2 ^ 24 + epoch.toNat := by
      have hsplit : (Epoch.shardPrefix shard).toNat
          = (chunkId.toNat * 2 ^ 8 + i.toNat) <<< 24 := by
        rw [toNat_shardPrefix, hnat, Nat.shiftLeft_eq]
        omega
      rw [ShardSlot.shardId, UInt64.toNat_or, hsplit, UInt32.toNat_toUInt64,
        ← Nat.shiftLeft_add_eq_or_of_lt hepoch, Nat.shiftLeft_eq]
      omega
    exact UInt8.toNat_inj.mp (ShardId.index_of_toNat hi hepoch hid)

end ComposeSlot

/-! ## The manager -/

structure ChunkIndex where
  chunks : OrdMap ChunkId Chunk
  staging : OrdMap ChunkId StagingChunk
  nextId : UInt32
  diskShards : OrdMap DiskId (Finset UInt64)

/-- The first slot with this index is replaced. -/
def replaceSlot (index : UInt8) (rebuilt : ShardSlot) : List ShardSlot → List ShardSlot
  | [] => []
  | slot :: slots =>
    if slot.index = index then rebuilt :: slots else slot :: replaceSlot index rebuilt slots

def findSlot (shards : List ShardSlot) (index : UInt8) : Option ShardSlot :=
  shards.find? fun slot => slot.index = index

lemma findSlot_replaceSlot {shards : List ShardSlot} {i j : UInt8} {slot rebuilt : ShardSlot}
    (hslot : findSlot shards i = some slot) (hrebuilt : rebuilt.index = i) :
    findSlot (replaceSlot i rebuilt shards) j = if j = i then some rebuilt else findSlot shards j := by
  induction shards with
  | nil => simp [findSlot] at hslot
  | cons head shards ih =>
    by_cases hhead : head.index = i
    · rw [replaceSlot, if_pos hhead, findSlot, List.find?_cons]
      by_cases hj : j = i
      · subst hj
        simp [hrebuilt]
      · simp [findSlot, hrebuilt, hhead, hj, Ne.symm hj]
    · have htail : findSlot shards i = some slot := by
        simpa [findSlot, List.find?_cons, hhead] using hslot
      have ih := ih htail
      rw [replaceSlot, if_neg hhead, findSlot, List.find?_cons]
      by_cases hj : head.index = j
      · have hji : j ≠ i := fun h => hhead (hj.trans h)
        simp [findSlot, hj, hji]
      · simp only [findSlot] at ih
        simp only [hj, decide_false, ih, findSlot, List.find?_cons]

namespace ChunkIndex

def new : ChunkIndex := ⟨.empty, .empty, firstId, .empty⟩

variable (index : ChunkIndex)

def get (chunkId : ChunkId) : Option Chunk := index.chunks.get chunkId

/-- Every slot of a committed chunk that lies on the disk. -/
def shardSlotsOnDisk (diskId : DiskId) : List ShardSlot :=
  index.chunks.toList.flatMap fun chunk => chunk.2.shards.filter fun slot => slot.diskId = diskId

/-- A page of committed chunks after an id. -/
def listChunks (after : ChunkId) (limit : ℕ) : List Chunk :=
  ((index.chunks.toList.filter fun chunk => after < chunk.1).take limit).map Prod.snd

/-- `entry(disk).or_default().insert(prefix)`. -/
def indexShard (diskShards : OrdMap DiskId (Finset UInt64)) (slot : ShardSlot) :
    OrdMap DiskId (Finset UInt64) :=
  diskShards.insert slot.diskId
    (insert slot.shardPrefix ((diskShards.get slot.diskId).getD ∅))

def indexShards (chunk : Chunk) : OrdMap DiskId (Finset UInt64) :=
  chunk.shards.foldl indexShard index.diskShards

def applyCreateStaging (cmd : CreateChunkStaging) : Except SmError (ChunkId × ChunkIndex) :=
  let chunkId := index.nextId
  match advanceCounter index.nextId with
  | .error err => .error err
  | .ok nextId =>
    match composeSlots chunkId cmd.slots cmd.epoch cmd.createTs with
    | .error err => .error err
    | .ok shards =>
      .ok (chunkId, { index with
        staging := index.staging.insert chunkId ⟨chunkId, cmd.codeMode, shards⟩, nextId })

def applyCommit (cmd : CommitChunk) : Option RejectReason × ChunkIndex :=
  match index.staging.get cmd.chunkId with
  | none => (some .NotFound, index)
  | some staging =>
    let chunk : Chunk := ⟨staging.chunkId, staging.codeMode, .Writable, staging.shards⟩
    (none, { index with
      chunks := index.chunks.insert chunk.chunkId chunk
      staging := index.staging.erase cmd.chunkId
      diskShards := index.indexShards chunk })

/-- The loop body of `apply_rebump`. -/
def rebumpSlot (chunkId : ChunkId) (slot : ShardSlot) : Except SmError ShardSlot :=
  if slot.epoch.toNat + epochJump < 2 ^ 32 then
    composeSlot chunkId slot.index (slot.epoch + 3) slot.diskId slot.extentId.createTs
  else .error ⟨"shard epoch overflow on recovery"⟩

def applyRebump (cmd : RebumpStaging) : Except SmError (Option RejectReason × ChunkIndex) :=
  match index.staging.get cmd.chunkId with
  | none => .ok (some .NotFound, index)
  | some staging =>
    (staging.shards.mapM (rebumpSlot cmd.chunkId)).map fun shards =>
      (none, { index with
        staging := index.staging.insert cmd.chunkId { staging with shards } })

def applySealChunk (cmd : SealChunk) : Option RejectReason × ChunkIndex :=
  match index.chunks.get cmd.chunkId with
  | none => (some .NotFound, index)
  | some chunk =>
    match chunk.status with
    | .Sealed => (none, index)
    | .Writable | .Full =>
      (none, { index with
        chunks := index.chunks.insert cmd.chunkId { chunk with status := .Sealed } })
    | .Migrating | .Broken => (some .InvalidTransition, index)

/-- Repoints one slot to a rebuilt extent; the authorisation is the caller's. -/
def applyRebind (chunkId : ChunkId) (slotIndex : UInt8) (expectedEpoch : UInt32) (newDisk : DiskId)
    (newCreateTs : Int64) : Except SmError (Option RejectReason × ChunkIndex) :=
  match index.chunks.get chunkId with
  | none => .ok (some .NotFound, index)
  | some chunk =>
    match findSlot chunk.shards slotIndex with
    | none => .ok (some .NotFound, index)
    | some slot =>
      if slot.epoch ≠ expectedEpoch then .ok (some .InvalidTransition, index)
      else if ShardId.maxShardEpoch.toNat < slot.epoch.toNat + 1 then
        .ok (some .InvalidTransition, index)
      else
        (composeSlot chunkId slotIndex (slot.epoch + 1) newDisk newCreateTs).map fun rebuilt =>
          let removed :=
            match index.diskShards.get slot.diskId with
            | none => index.diskShards
            | some set => index.diskShards.insert slot.diskId (set.erase slot.shardPrefix)
          (none, { index with
            chunks := index.chunks.insert chunk.chunkId
              { chunk with shards := replaceSlot slotIndex rebuilt chunk.shards }
            diskShards := indexShard removed rebuilt })

def applyCommitShardMapping (cmd : CommitShardMapping) :
    Except SmError (Option RejectReason × ChunkIndex) :=
  index.applyRebind cmd.chunkId cmd.index cmd.expectedEpoch cmd.newDisk cmd.newCreateTs

end ChunkIndex

end Pd

end Epoch
