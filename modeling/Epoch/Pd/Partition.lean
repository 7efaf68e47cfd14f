import Epoch.Pd.Cluster

/-!
# Partitions (`epoch-pd/src/meta_mgr.rs`)

The route table of the metadata service: every partition covers an interval of coordinates (bucket,
routing key) of one namespace and names the nodes that replicate it.  Three commands change it.  Creation
takes the interval as the command has it; a split gives the part of the interval from a boundary on to
a new partition with the same peers; a migration replaces one peer by another.

`applyMigrate` looks at which of the two nodes are peers already.  It treats "the new one is, the old one
is not" as a replay and does nothing; in the three other cases it removes the old node if present and
adds the new one if absent.
-/

namespace Epoch.Pd

inductive NsMode
  | Flat
  | Hier
deriving DecidableEq

def nsTag : NsMode → UInt8
  | .Flat => 0
  | .Hier => 1

/-- `(bucket, routing_key)`, compared as a pair. -/
abbrev Coord := UInt64 ×ₗ Bytes

structure PartitionBound where
  bucket : UInt64
  routingKey : Bytes
  unbounded : Bool
deriving DecidableEq

namespace PartitionBound

def unboundedStart : PartitionBound := ⟨0, [], true⟩

def unboundedEnd : PartitionBound := ⟨0xFFFFFFFFFFFFFFFF, [], true⟩

def at' (bucket : UInt64) (routingKey : Bytes) : PartitionBound := ⟨bucket, routingKey, false⟩

def coord (bound : PartitionBound) : Coord := toLex (bound.bucket, bound.routingKey)

end PartitionBound

abbrev PartitionId := UInt64

structure MetaPartition where
  partitionId : PartitionId
  ns : NsMode
  start : PartitionBound
  stop : PartitionBound
  peers : List NodeId
  epoch : UInt64
deriving DecidableEq

namespace MetaPartition

/-- Start-inclusive, end-exclusive. -/
def intervalContains (p : MetaPartition) (coord : Coord) : Bool :=
  (p.start.unbounded || decide (p.start.coord ≤ coord))
    && (p.stop.unbounded || decide (coord < p.stop.coord))

/-- The key of the route index; an unbounded start sorts first. -/
def startKey (p : MetaPartition) : UInt8 ×ₗ Coord :=
  toLex (nsTag p.ns, if p.start.unbounded then toLex (0, []) else p.start.coord)

end MetaPartition

structure CreatePartition where
  ns : NsMode
  start : PartitionBound
  stop : PartitionBound
  peers : List NodeId
deriving DecidableEq

structure SplitPartition where
  parentId : PartitionId
  boundary : PartitionBound
deriving DecidableEq

structure MigratePartition where
  partitionId : PartitionId
  source : NodeId
  target : NodeId
deriving DecidableEq

structure PartitionIndex where
  partitions : OrdMap PartitionId MetaPartition
  byStart : OrdMap (UInt8 ×ₗ Coord) PartitionId
  nextId : UInt64
  nextInoTag : UInt32

def inoPartitionTagBits : ℕ := 16

namespace PartitionIndex

/-- As `restore` leaves it on an empty column family. -/
def new : PartitionIndex := ⟨.empty, .empty, 1, 1⟩

variable (index : PartitionIndex)

def get (partitionId : PartitionId) : Option MetaPartition := index.partitions.get partitionId

def list : List MetaPartition := index.partitions.toList.map Prod.snd

def advanceId : Except SmError UInt64 :=
  if index.nextId.toNat + 1 < 2 ^ 64 then .ok (index.nextId + 1)
  else .error ⟨"partition id counter overflow"⟩

def advanceInoTag : Except SmError UInt32 :=
  if index.nextInoTag.toNat + 1 < 2 ^ inoPartitionTagBits then .ok (index.nextInoTag + 1)
  else .error ⟨"ino partition tag space exhausted"⟩

/-- An identical interval is returned, any other one is added without a look at its neighbours. -/
def applyCreate (cmd : CreatePartition) : Except SmError (PartitionId × PartitionIndex) :=
  match index.list.find? fun p => p.ns = cmd.ns ∧ p.start = cmd.start ∧ p.stop = cmd.stop with
  | some existing => .ok (existing.partitionId, index)
  | none =>
    let partition : MetaPartition := ⟨index.nextId, cmd.ns, cmd.start, cmd.stop, cmd.peers, 1⟩
    index.advanceId.map fun nextId =>
      (index.nextId, { index with
        partitions := index.partitions.insert index.nextId partition
        byStart := index.byStart.insert partition.startKey index.nextId
        nextId })

/-- The boundary lies strictly inside the parent's interval. -/
def strictlyInside (parent : MetaPartition) (boundary : PartitionBound) : Bool :=
  !boundary.unbounded
    && (parent.start.unbounded || decide (parent.start.coord < boundary.coord))
    && (parent.stop.unbounded || decide (boundary.coord < parent.stop.coord))

def applySplit (cmd : SplitPartition) :
    Except SmError (Option (PartitionId × UInt32) × PartitionIndex) :=
  match index.partitions.get cmd.parentId with
  | none => .ok (none, index)
  | some parent =>
    if !strictlyInside parent cmd.boundary then .ok (none, index)
    else
      let childId := index.nextId
      let childInoTag := index.nextInoTag
      let child : MetaPartition :=
        ⟨childId, parent.ns, cmd.boundary, parent.stop, parent.peers, 1⟩
      let narrowed := { parent with stop := cmd.boundary, epoch := parent.epoch + 1 }
      match index.advanceId with
      | .error err => .error err
      | .ok nextId =>
        index.advanceInoTag.map fun nextInoTag =>
          (some (childId, childInoTag),
            { partitions := (index.partitions.insert cmd.parentId narrowed).insert childId child
              byStart := index.byStart.insert child.startKey childId
              nextId, nextInoTag })

/-- The peers after a swap, whatever was there before. -/
def swapPeer (peers : List NodeId) (source target : NodeId) : List NodeId :=
  let kept := peers.filter fun peer => peer ≠ source
  if target ∈ peers then kept else kept ++ [target]

def applyMigrate (cmd : MigratePartition) : Option (List NodeId) × PartitionIndex :=
  match index.partitions.get cmd.partitionId with
  | none => (none, index)
  | some partition =>
    if cmd.target ∈ partition.peers ∧ cmd.source ∉ partition.peers then (none, index)
    else
      let peers := swapPeer partition.peers cmd.source cmd.target
      if peers = [] then (none, index)
      else
        let migrated := { partition with peers, epoch := partition.epoch + 1 }
        (some peers,
          { index with partitions := index.partitions.insert cmd.partitionId migrated })

/-- The partition whose start is the greatest one up to the coordinate, if it covers the coordinate. -/
def route (ns : NsMode) (coord : Coord) : Option MetaPartition :=
  match (index.byStart.toList.filter fun e => e.1 ≤ toLex (nsTag ns, coord)).getLast? with
  | none => none
  | some candidate =>
    (index.partitions.get candidate.2).filter fun partition => partition.intervalContains coord

end PartitionIndex

end Epoch.Pd
