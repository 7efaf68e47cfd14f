import Epoch.Client.WriterSession
import Epoch.Pd.Chunk
import Epoch.Pd.Partition

/-!
# Buckets, settings, writer tokens and repair tickets

`epoch-pd/src/bucket.rs`, `config_mgr.rs`, `credential.rs`, `writer/{model,manager}.rs` and
`shard_repair.rs`: the managers of PD whose commands touch one record each.

A repair ticket says that the shard in some slot is to be rebuilt by the node that holds it.  The node and
the epoch in a ticket are those of the slot when it was reported.  Tickets are kept under the slot, so a
report for a slot that has one changes nothing.
-/

namespace Epoch.Pd

/-! ## Buckets -/

inductive MetaEngine
  | Rocks
  | Mem
deriving DecidableEq

abbrev BucketId := UInt64

structure BucketMeta where
  bucketId : BucketId
  name : String
  nsMode : NsMode
  inlineThreshold : Option UInt64
  codemodeId : UInt16
  engine : MetaEngine
  createdAt : Int64
deriving DecidableEq

structure CreateBucket where
  name : String
  nsMode : NsMode
  inlineThreshold : Option UInt64
  codemodeId : UInt16
  engine : MetaEngine
  createdAt : Int64
deriving DecidableEq

structure BucketIndex where
  buckets : OrdMap BucketId BucketMeta
  names : OrdMap String BucketId
  nextId : UInt64

def hierBucketBit : UInt64 := 0x8000000000000000

namespace BucketIndex

def new : BucketIndex := ⟨.empty, .empty, 1⟩

/-- Idempotent by name; hierarchical buckets carry the top bit. -/
def applyCreate (index : BucketIndex) (cmd : CreateBucket) :
    Except SmError (BucketId × BucketIndex) :=
  match index.names.get cmd.name with
  | some existing => .ok (existing, index)
  | none =>
    let bucketId := index.nextId ||| (if cmd.nsMode = .Hier then hierBucketBit else 0)
    let bucket : BucketMeta :=
      ⟨bucketId, cmd.name, cmd.nsMode, cmd.inlineThreshold, cmd.codemodeId, cmd.engine,
        cmd.createdAt⟩
    if index.nextId.toNat + 1 < 2 ^ 64 then
      .ok (bucketId,
        ⟨index.buckets.insert bucketId bucket, index.names.insert cmd.name bucketId,
          index.nextId + 1⟩)
    else .error ⟨"bucket id counter overflow"⟩

end BucketIndex

/-! ## Settings and credentials -/

structure PutConfig where
  key : String
  value : Bytes
deriving DecidableEq

structure DeleteConfig where
  key : String
deriving DecidableEq

abbrev ConfigIndex := OrdMap String Bytes

def ConfigIndex.applyPut (index : ConfigIndex) (cmd : PutConfig) : ConfigIndex :=
  OrdMap.insert index cmd.key cmd.value

def ConfigIndex.applyDelete (index : ConfigIndex) (cmd : DeleteConfig) : ConfigIndex :=
  OrdMap.erase index cmd.key

inductive ConsoleRole
  | Readonly
  | Admin
deriving DecidableEq

structure Credential where
  secretKey : String
  allowedBuckets : Option (List String)
  role : ConsoleRole
deriving DecidableEq

structure PutCredential where
  accessKey : String
  secretKey : String
  allowedBuckets : Option (List String)
  role : ConsoleRole
deriving DecidableEq

abbrev CredentialIndex := OrdMap String Credential

def CredentialIndex.applyPut (index : CredentialIndex) (cmd : PutCredential) : CredentialIndex :=
  OrdMap.insert index cmd.accessKey ⟨cmd.secretKey, cmd.allowedBuckets, cmd.role⟩

/-! ## Writer tokens -/

inductive WriterStatus
  | Live
  | Dead
deriving DecidableEq

structure WriterRecord where
  token : WriterToken
  nodeId : NodeId
  status : WriterStatus
deriving DecidableEq

structure RegisterWriter where
  nodeId : NodeId
deriving DecidableEq

structure MarkWriterDead where
  token : WriterToken
deriving DecidableEq

structure WriterIndex where
  writers : OrdMap WriterToken WriterRecord
  nextId : UInt32

namespace WriterIndex

def new : WriterIndex := ⟨.empty, firstId⟩

variable (index : WriterIndex)

/-- Every registration takes a token of its own. -/
def applyRegister (cmd : RegisterWriter) : Except SmError (WriterToken × WriterIndex) :=
  (advanceCounter index.nextId).map fun nextId =>
    (index.nextId,
      ⟨index.writers.insert index.nextId ⟨index.nextId, cmd.nodeId, .Live⟩, nextId⟩)

def applyMarkDead (cmd : MarkWriterDead) : Option RejectReason × WriterIndex :=
  match index.writers.get cmd.token with
  | none => (some .NotFound, index)
  | some current =>
    if current.status = .Dead then (none, index)
    else
      (none, { index with
        writers := index.writers.insert cmd.token { current with status := .Dead } })

/-- Token and gateway node of every live session. -/
def liveSessions : List (WriterToken × NodeId) :=
  ((index.writers.toList.map Prod.snd).filter fun record => record.status = .Live).map
    fun record => (record.token, record.nodeId)

end WriterIndex

/-! ## Repair tickets -/

structure ShardRepairTicket where
  chunkId : ChunkId
  index : UInt8
  targetNode : NodeId
  expectedEpoch : UInt32
deriving DecidableEq

structure ReportShardRepair where
  chunkId : ChunkId
  index : UInt8
deriving DecidableEq

structure CommitShardRepair where
  chunkId : ChunkId
  index : UInt8
  expectedEpoch : UInt32
  newDisk : DiskId
  newCreateTs : Int64
  committer : NodeId
deriving DecidableEq

def ticketFromSlot (chunkId : ChunkId) (slot : ShardSlot) (targetNode : NodeId) :
    ShardRepairTicket :=
  ⟨chunkId, slot.index, targetNode, slot.epoch⟩

inductive ShardRepairRejection
  | NoTicket
  | NotTarget
  | EpochMismatch
deriving DecidableEq

abbrev ShardRepairIndex := OrdMap UInt64 ShardRepairTicket

namespace ShardRepairTicket

def shardPrefix (ticket : ShardRepairTicket) : UInt64 := Pd.shardPrefix ticket.chunkId ticket.index

/-- `authorize_commit`; `none` when the rebind may apply. -/
def authorizeCommit (ticket : Option ShardRepairTicket) (committer : NodeId) (commitEpoch : UInt32) :
    Option ShardRepairRejection :=
  match ticket with
  | none => some .NoTicket
  | some ticket =>
    if ticket.targetNode ≠ committer then some .NotTarget
    else if ticket.expectedEpoch ≠ commitEpoch then some .EpochMismatch
    else none

end ShardRepairTicket

inductive ReportOutcome
  | Created
  | AlreadyPresent
deriving DecidableEq

namespace ShardRepairIndex

def applyReport (index : ShardRepairIndex) (ticket : ShardRepairTicket) :
    ReportOutcome × ShardRepairIndex :=
  match OrdMap.get index ticket.shardPrefix with
  | some _ => (.AlreadyPresent, index)
  | none => (.Created, OrdMap.insert index ticket.shardPrefix ticket)

def applyClear (index : ShardRepairIndex) (slot : UInt64) : ShardRepairIndex :=
  OrdMap.erase index slot

end ShardRepairIndex

end Epoch.Pd
