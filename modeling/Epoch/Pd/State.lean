import Epoch.Pd.Job
import Epoch.Pd.Registry

/-!
# The PD state machine (`epoch-pd/src/state.rs`, `journal/entry.rs`, `chunk/placement.rs`)

`applyCommand` takes one committed entry to the manager it belongs to and does the checks that need more
than one of them: a disk belongs to a registered node, a plan names usable disks, the peers of a
partition are metadata nodes, a re-bind is authorised and keeps the shards of a chunk on different
nodes.

The lemmas on `applyCommand` say which parts of the state an entry can change, so that an argument about
one part looks at the entries of its manager only.
-/

namespace Epoch.Pd

inductive PdEntry
  | Noop
  | RegisterNode (cmd : RegisterNode)
  | UpdateNodeStatus (cmd : UpdateNodeStatus)
  | RemoveNode (cmd : RemoveNode)
  | RegisterDisk (cmd : RegisterDisk)
  | UpdateDiskStatus (cmd : UpdateDiskStatus)
  | CreateChunkStaging (cmd : CreateChunkStaging)
  | CommitChunk (cmd : CommitChunk)
  | RebumpStaging (cmd : RebumpStaging)
  | SealChunk (cmd : SealChunk)
  | CreateBucket (cmd : CreateBucket)
  | CreatePartition (cmd : CreatePartition)
  | SplitPartition (cmd : SplitPartition)
  | MigratePartition (cmd : MigratePartition)
  | PutConfig (cmd : PutConfig)
  | PutCredential (cmd : PutCredential)
  | DeleteConfig (cmd : DeleteConfig)
  | RegisterWriter (cmd : RegisterWriter)
  | MarkWriterDead (cmd : MarkWriterDead)
  | Job (cmd : JobCommand)
  | CommitShardMapping (cmd : CommitShardMapping)
  | ReportShardRepair (cmd : ReportShardRepair)
  | CommitShardRepair (cmd : CommitShardRepair)
deriving DecidableEq

inductive ApplyResult
  | Applied
  | NodeRegistered (nodeId : NodeId)
  | DiskRegistered (diskId : DiskId)
  | ChunkStaged (chunkId : ChunkId)
  | WriterRegistered (token : WriterToken)
  | BucketCreated (bucketId : BucketId)
  | PartitionCreated (partitionId : PartitionId)
  | PartitionSplit (childId : PartitionId) (childInoTag : UInt32)
  | PartitionMigrated (peers : List NodeId)
  | JobCreated (jobId : UInt32)
  | ShardRebound (newEpoch : UInt32)
  | ShardRepairReported (created : Bool)
  | Rejected (reason : RejectReason)
deriving DecidableEq

/-! ## Placement -/

structure SlotDomain where
  index : UInt8
  nodeId : NodeId
  rack : String
deriving DecidableEq

structure DiskCandidate where
  diskId : DiskId
  nodeId : NodeId
  rack : String
  writableExtents : UInt32
deriving DecidableEq

inductive AntiAffinity
  | HostAware
  | RackAware
deriving DecidableEq

def rebindAffinity : AntiAffinity := .HostAware

def rebindPreservesAffinity (others : List SlotDomain) (target : DiskCandidate)
    (affinity : AntiAffinity) : Bool :=
  if others.any fun slot => slot.nodeId = target.nodeId then false
  else if affinity = .RackAware ∧ (others.any fun slot => slot.rack = target.rack) then false
  else true

/-! ## The state -/

structure PdState where
  nodes : NodeIndex
  disks : DiskIndex
  chunks : ChunkIndex
  writers : WriterIndex
  buckets : BucketIndex
  configs : ConfigIndex
  partitions : PartitionIndex
  credentials : CredentialIndex
  jobs : JobIndex
  shardRepairs : ShardRepairIndex

/-- `reject_to_result`. -/
def rejectToResult : Option RejectReason → ApplyResult
  | none => .Applied
  | some reason => .Rejected reason

namespace PdState

/-- `PdState::open` on an empty database. -/
def new : PdState :=
  ⟨.new, .new, .new, .new, .new, .empty, .new, .empty, .new, .empty⟩

variable (state : PdState)

def rebindAffinityReject (chunkId : ChunkId) (index : UInt8) (newDisk : DiskId) :
    Option RejectReason :=
  match state.chunks.get chunkId with
  | none => none
  | some chunk =>
    match state.disks.get newDisk with
    | none => some .DiskUnavailable
    | some target =>
      let others := (chunk.shards.filter fun slot => slot.index ≠ index).filterMap fun slot =>
        (state.disks.get slot.diskId).map fun disk =>
          (⟨slot.index, disk.nodeId, disk.rack⟩ : SlotDomain)
      if rebindPreservesAffinity others ⟨newDisk, target.nodeId, target.rack, 0⟩ rebindAffinity
      then none else some .AffinityViolation

/-- The disk check of `chunk_plan_reject`, slot by slot. -/
def disksUsable (slots : List SlotPlan) : Bool :=
  slots.all fun slot => ((state.disks.get slot.diskId).map Disk.status) = some .Normal

def chunkPlanReject (cmd : CreateChunkStaging) : Option RejectReason :=
  match validateSlots cmd.codeMode cmd.slots with
  | some reason => some reason
  | none => if state.disksUsable cmd.slots then none else some .DiskUnavailable

/-- Every peer is a registered node with the META role. -/
def metaPeers (peers : List NodeId) : Bool :=
  peers.all fun peer => ((state.nodes.get peer).map fun node => node.roles.contains .META) = some true

/-- The ticket a report stands for, from the committed slot and its disk. -/
def reportedTicket (cmd : ReportShardRepair) : Option ShardRepairTicket :=
  (state.chunks.get cmd.chunkId).bind fun chunk =>
    (findSlot chunk.shards cmd.index).bind fun slot =>
      (state.disks.get slot.diskId).map fun disk => ticketFromSlot cmd.chunkId slot disk.nodeId

/-- The rebind both authorisation paths end in, with what is done to the tickets when it applies. -/
def rebound (chunkId : ChunkId) (index : UInt8) (expectedEpoch : UInt32) (newDisk : DiskId)
    (rebind : Except SmError (Option RejectReason × ChunkIndex)) (tickets : ShardRepairIndex) :
    Except SmError (ApplyResult × PdState) :=
  match state.rebindAffinityReject chunkId index newDisk with
  | some reason => .ok (.Rejected reason, state)
  | none =>
    rebind.map fun result =>
      match result.1 with
      | none =>
        (.ShardRebound (expectedEpoch + 1),
          { state with chunks := result.2, shardRepairs := tickets })
      | some reason => (.Rejected reason, state)

def applyCommand : PdEntry → Except SmError (ApplyResult × PdState)
  | .Noop => .ok (.Applied, state)
  | .RegisterNode cmd =>
    (state.nodes.applyRegister cmd).map fun r => (.NodeRegistered r.1, { state with nodes := r.2 })
  | .UpdateNodeStatus cmd =>
    let r := state.nodes.applyUpdateStatus cmd
    .ok (rejectToResult r.1, { state with nodes := r.2 })
  | .RemoveNode cmd =>
    let r := state.nodes.applyRemove cmd
    .ok (rejectToResult r.1, { state with nodes := r.2 })
  | .RegisterDisk cmd =>
    if !state.nodes.contains cmd.nodeId then .ok (.Rejected .NodeNotFound, state)
    else
      (state.disks.applyRegister cmd).map fun r =>
        (.DiskRegistered r.1, { state with disks := r.2 })
  | .UpdateDiskStatus cmd =>
    let r := state.disks.applyUpdateStatus cmd
    .ok (rejectToResult r.1, { state with disks := r.2 })
  | .CreateChunkStaging cmd =>
    match state.chunkPlanReject cmd with
    | some reason => .ok (.Rejected reason, state)
    | none =>
      (state.chunks.applyCreateStaging cmd).map fun r =>
        (.ChunkStaged r.1, { state with chunks := r.2 })
  | .CommitChunk cmd =>
    let r := state.chunks.applyCommit cmd
    .ok (rejectToResult r.1, { state with chunks := r.2 })
  | .RebumpStaging cmd =>
    (state.chunks.applyRebump cmd).map fun r => (rejectToResult r.1, { state with chunks := r.2 })
  | .SealChunk cmd =>
    let r := state.chunks.applySealChunk cmd
    .ok (rejectToResult r.1, { state with chunks := r.2 })
  | .CreateBucket cmd =>
    (state.buckets.applyCreate cmd).map fun r => (.BucketCreated r.1, { state with buckets := r.2 })
  | .CreatePartition cmd =>
    if !state.metaPeers cmd.peers then .ok (.Rejected .NodeNotFound, state)
    else
      (state.partitions.applyCreate cmd).map fun r =>
        (.PartitionCreated r.1, { state with partitions := r.2 })
  | .SplitPartition cmd =>
    (state.partitions.applySplit cmd).map fun r =>
      match r.1 with
      | some child => (.PartitionSplit child.1 child.2, { state with partitions := r.2 })
      | none => (.Rejected .NotFound, { state with partitions := r.2 })
  | .MigratePartition cmd =>
    let r := state.partitions.applyMigrate cmd
    match r.1 with
    | some peers => .ok (.PartitionMigrated peers, { state with partitions := r.2 })
    | none => .ok (.Rejected .NotFound, { state with partitions := r.2 })
  | .PutConfig cmd => .ok (.Applied, { state with configs := state.configs.applyPut cmd })
  | .PutCredential cmd =>
    .ok (.Applied, { state with credentials := state.credentials.applyPut cmd })
  | .DeleteConfig cmd => .ok (.Applied, { state with configs := state.configs.applyDelete cmd })
  | .RegisterWriter cmd =>
    if !state.nodes.contains cmd.nodeId then .ok (.Rejected .NodeNotFound, state)
    else
      (state.writers.applyRegister cmd).map fun r =>
        (.WriterRegistered r.1, { state with writers := r.2 })
  | .MarkWriterDead cmd =>
    let r := state.writers.applyMarkDead cmd
    .ok (rejectToResult r.1, { state with writers := r.2 })
  | .Job cmd =>
    (state.jobs.apply cmd).map fun r =>
      match r.1 with
      | .Created jobId => (.JobCreated jobId, { state with jobs := r.2 })
      | .Applied => (.Applied, { state with jobs := r.2 })
      | .Rejected reason => (.Rejected reason, { state with jobs := r.2 })
  | .CommitShardMapping cmd =>
    if (authorizeCommit (state.jobs.get cmd.jobId) cmd.committer 0 0).isSome then
      .ok (.Rejected .NotFound, state)
    else
      state.rebound cmd.chunkId cmd.index cmd.expectedEpoch cmd.newDisk
        (state.chunks.applyCommitShardMapping cmd) state.shardRepairs
  | .ReportShardRepair cmd =>
    match state.reportedTicket cmd with
    | none => .ok (.Rejected .NotFound, state)
    | some ticket =>
      let r := state.shardRepairs.applyReport ticket
      .ok (.ShardRepairReported (r.1 = .Created), { state with shardRepairs := r.2 })
  | .CommitShardRepair cmd =>
    let slot := shardPrefix cmd.chunkId cmd.index
    if (ShardRepairTicket.authorizeCommit (OrdMap.get state.shardRepairs slot) cmd.committer
        cmd.expectedEpoch).isSome then
      .ok (.Rejected .NotFound, state)
    else
      state.rebound cmd.chunkId cmd.index cmd.expectedEpoch cmd.newDisk
        (state.chunks.applyRebind cmd.chunkId cmd.index cmd.expectedEpoch cmd.newDisk
          cmd.newCreateTs)
        (state.shardRepairs.applyClear slot)

/-- The state after an entry; an error leaves the last one. -/
def next (entry : PdEntry) : PdState :=
  match state.applyCommand entry with
  | .ok r => r.2
  | .error _ => state

variable {state}

lemma next_of_ok {entry : PdEntry} {r : ApplyResult × PdState} (h : state.applyCommand entry = .ok r) :
    state.next entry = r.2 := by
  rw [next, h]

/-- Either the entry was applied, or it failed and the state is the old one. -/
lemma next_cases (state : PdState) (entry : PdEntry) :
    state.next entry = state ∨ ∃ result, state.applyCommand entry = .ok (result, state.next entry) := by
  cases h : state.applyCommand entry with
  | error err => exact Or.inl (by rw [next, h])
  | ok r => exact Or.inr ⟨r.1, by rw [next_of_ok h]⟩

end PdState

/-- How a call ends for the caller; a failed one may have taken effect. -/
inductive Answer
  | ok
  | failed (took : Bool)
deriving DecidableEq

/-! ## What an entry leaves alone -/

inductive Manager
  | nodes
  | disks
  | chunks
  | writers
  | buckets
  | configs
  | partitions
  | credentials
  | jobs
  | shardRepairs
deriving DecidableEq

/-- The managers an entry can change. -/
def PdEntry.touches : PdEntry → List Manager
  | .Noop => []
  | .RegisterNode _ | .UpdateNodeStatus _ | .RemoveNode _ => [.nodes]
  | .RegisterDisk _ | .UpdateDiskStatus _ => [.disks]
  | .CreateChunkStaging _ | .CommitChunk _ | .RebumpStaging _ | .SealChunk _ => [.chunks]
  | .CreateBucket _ => [.buckets]
  | .CreatePartition _ | .SplitPartition _ | .MigratePartition _ => [.partitions]
  | .PutConfig _ | .DeleteConfig _ => [.configs]
  | .PutCredential _ => [.credentials]
  | .RegisterWriter _ | .MarkWriterDead _ => [.writers]
  | .Job _ => [.jobs]
  | .CommitShardMapping _ => [.chunks]
  | .ReportShardRepair _ => [.shardRepairs]
  | .CommitShardRepair _ => [.chunks, .shardRepairs]

/-- The managers outside the list are as they were. -/
structure Untouched (touched : List Manager) (state state' : PdState) : Prop where
  nodes : .nodes ∉ touched → state'.nodes = state.nodes
  disks : .disks ∉ touched → state'.disks = state.disks
  chunks : .chunks ∉ touched → state'.chunks = state.chunks
  writers : .writers ∉ touched → state'.writers = state.writers
  buckets : .buckets ∉ touched → state'.buckets = state.buckets
  configs : .configs ∉ touched → state'.configs = state.configs
  partitions : .partitions ∉ touched → state'.partitions = state.partitions
  credentials : .credentials ∉ touched → state'.credentials = state.credentials
  jobs : .jobs ∉ touched → state'.jobs = state.jobs
  shardRepairs : .shardRepairs ∉ touched → state'.shardRepairs = state.shardRepairs

lemma Untouched.refl (touched : List Manager) (state : PdState) : Untouched touched state state :=
  ⟨fun _ => rfl, fun _ => rfl, fun _ => rfl, fun _ => rfl, fun _ => rfl, fun _ => rfl, fun _ => rfl,
    fun _ => rfl, fun _ => rfl, fun _ => rfl⟩

lemma map_eq_ok {α β ε : Type} {x : Except ε α} {f : α → β} {b : β} (h : x.map f = .ok b) :
    ∃ a, x = .ok a ∧ f a = b := by
  cases x with
  | error err => cases h
  | ok a => exact ⟨a, rfl, Except.ok.inj h⟩

namespace PdState

variable {state : PdState}

section Frames

lemma untouched_nodes (nodes : NodeIndex) : Untouched [.nodes] state { state with nodes } := by
  constructor <;> simp

lemma untouched_disks (disks : DiskIndex) : Untouched [.disks] state { state with disks } := by
  constructor <;> simp

lemma untouched_chunks (chunks : ChunkIndex) : Untouched [.chunks] state { state with chunks } := by
  constructor <;> simp

lemma untouched_partitions (partitions : PartitionIndex) :
    Untouched [.partitions] state { state with partitions } := by
  constructor <;> simp

lemma untouched_rebound {chunkId : ChunkId} {index : UInt8} {expectedEpoch : UInt32} {newDisk : DiskId}
    {rebind : Except SmError (Option RejectReason × ChunkIndex)} {tickets : ShardRepairIndex}
    {r : ApplyResult × PdState}
    (h : state.rebound chunkId index expectedEpoch newDisk rebind tickets = .ok r) :
    Untouched [.chunks, .shardRepairs] state r.2
      ∧ (tickets = state.shardRepairs → r.2.shardRepairs = state.shardRepairs) := by
  rw [rebound] at h
  cases haff : state.rebindAffinityReject chunkId index newDisk with
  | some reason =>
    simp only [haff, Except.ok.injEq] at h
    subst h
    exact ⟨.refl _ _, fun _ => rfl⟩
  | none =>
    simp only [haff] at h
    obtain ⟨⟨reject, chunks⟩, -, rfl⟩ := map_eq_ok h
    cases reject with
    | some reason => exact ⟨.refl _ _, fun _ => rfl⟩
    | none => exact ⟨by constructor <;> simp, fun htickets => htickets⟩

end Frames

/-- An applied entry changes only the managers it touches. -/
theorem untouched_applyCommand {entry : PdEntry} {r : ApplyResult × PdState}
    (h : state.applyCommand entry = .ok r) : Untouched entry.touches state r.2 := by
  cases entry with
  | Noop => cases h; exact .refl _ _
  | RegisterNode cmd =>
    obtain ⟨a, -, rfl⟩ := map_eq_ok h
    exact untouched_nodes a.2
  | UpdateNodeStatus cmd => cases h; exact untouched_nodes _
  | RemoveNode cmd => cases h; exact untouched_nodes _
  | RegisterDisk cmd =>
    simp only [applyCommand] at h
    split at h
    · cases h; exact .refl _ _
    · obtain ⟨a, -, rfl⟩ := map_eq_ok h
      exact untouched_disks a.2
  | UpdateDiskStatus cmd => cases h; exact untouched_disks _
  | CreateChunkStaging cmd =>
    simp only [applyCommand] at h
    cases hplan : state.chunkPlanReject cmd with
    | some reason => rw [hplan] at h; cases h; exact .refl _ _
    | none =>
      rw [hplan] at h
      obtain ⟨a, -, rfl⟩ := map_eq_ok h
      exact untouched_chunks a.2
  | CommitChunk cmd => cases h; exact untouched_chunks _
  | RebumpStaging cmd =>
    obtain ⟨a, -, rfl⟩ := map_eq_ok h
    exact untouched_chunks a.2
  | SealChunk cmd => cases h; exact untouched_chunks _
  | CreateBucket cmd =>
    obtain ⟨a, -, rfl⟩ := map_eq_ok h
    constructor <;> simp [PdEntry.touches]
  | CreatePartition cmd =>
    simp only [applyCommand] at h
    split at h
    · cases h; exact .refl _ _
    · obtain ⟨a, -, rfl⟩ := map_eq_ok h
      exact untouched_partitions a.2
  | SplitPartition cmd =>
    obtain ⟨⟨child, partitions⟩, -, rfl⟩ := map_eq_ok h
    cases child <;> exact untouched_partitions partitions
  | MigratePartition cmd =>
    simp only [applyCommand] at h
    cases hpeers : (state.partitions.applyMigrate cmd).1 <;>
      (rw [hpeers] at h; cases h; exact untouched_partitions _)
  | PutConfig cmd | PutCredential cmd | DeleteConfig cmd =>
    cases h
    constructor <;> simp [PdEntry.touches]
  | RegisterWriter cmd =>
    simp only [applyCommand] at h
    split at h
    · cases h; exact .refl _ _
    · obtain ⟨a, -, rfl⟩ := map_eq_ok h
      constructor <;> simp [PdEntry.touches]
  | MarkWriterDead cmd => cases h; constructor <;> simp [PdEntry.touches]
  | Job cmd =>
    obtain ⟨⟨outcome, jobs⟩, -, rfl⟩ := map_eq_ok h
    cases outcome <;> (constructor <;> simp [PdEntry.touches])
  | CommitShardMapping cmd =>
    simp only [applyCommand] at h
    split at h
    · cases h; exact .refl _ _
    · obtain ⟨hframe, htickets⟩ := untouched_rebound h
      exact ⟨fun _ => hframe.nodes (by simp), fun _ => hframe.disks (by simp),
        fun hn => absurd (by simp [PdEntry.touches]) hn, fun _ => hframe.writers (by simp),
        fun _ => hframe.buckets (by simp), fun _ => hframe.configs (by simp),
        fun _ => hframe.partitions (by simp), fun _ => hframe.credentials (by simp),
        fun _ => hframe.jobs (by simp), fun _ => htickets rfl⟩
  | ReportShardRepair cmd =>
    simp only [applyCommand] at h
    cases hticket : state.reportedTicket cmd with
    | none => rw [hticket] at h; cases h; exact .refl _ _
    | some ticket =>
      rw [hticket] at h
      cases h
      constructor <;> simp [PdEntry.touches]
  | CommitShardRepair cmd =>
    simp only [applyCommand] at h
    split at h
    · cases h; exact .refl _ _
    · exact (untouched_rebound h).1

theorem untouched_next (entry : PdEntry) : Untouched entry.touches state (state.next entry) := by
  rcases state.next_cases entry with hsame | ⟨result, hok⟩
  · rw [hsame]
    exact .refl _ _
  · exact untouched_applyCommand hok

end PdState

end Epoch.Pd
