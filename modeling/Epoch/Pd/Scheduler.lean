import Epoch.Meta.Partition
import Epoch.Pd.Operator
import Epoch.Pd.Routes

/-!
# The partition scheduler (`epoch-pd/src/meta_sched/driver.rs`, `epoch-node/src/roles/meta_admin.rs`)

A sweep of the leader frees the slots of finished operations, plans from the route table, has the controller
admit what may start and executes each admitted operation: it proposes the change of the route record and
then tells the raft group of the partition.

What the world does while an operation runs is an `Outcome`: the entries that others commit in the meantime, the
answer of `suggest_split_point`, whether the proposal and the push are answered, and where an answer is
missing, whether the call took effect all the same.  A crash of the leader is a proposal or a push that
is not answered.

The raft groups are their live range and their voters.  `apply_split` cuts the range as the group's state
machine does (`PartitionRange.split`), and `migrate_group_member` sets the voters from the record it is
sent.
-/

namespace Epoch.Pd

/-! ## The raft groups of the partitions -/

structure LiveGroup where
  range : PartitionRange
  voters : Finset NodeId
deriving DecidableEq

/-- PD's state and the groups. -/
structure World where
  pd : PdState
  groups : OrdMap PartitionId LiveGroup

def NsMode.namespace : NsMode → Namespace
  | .Flat => .Flat
  | .Hier => .Hier

/-- `decode_bound`. -/
def PartitionBound.decode (bound : PartitionBound) : Option (BucketId × Bytes) :=
  if bound.unbounded then none else some (bound.bucket, bound.routingKey)

/-- The interval of a record as the group has it. -/
def MetaPartition.range (p : MetaPartition) : PartitionRange :=
  ⟨p.ns.namespace, p.start.decode, p.stop.decode⟩

namespace World

variable (w : World)

def next (entry : PdEntry) : World := { w with pd := w.pd.next entry }

def advance (entries : List PdEntry) : World := { w with pd := run PdState.next w.pd entries }

/-- The peers with a known address. -/
def peers (p : MetaPartition) : Finset NodeId :=
  (p.peers.filter fun id => w.pd.nodes.contains id).toFinset

/-- `create_raft_group`, pushed for a record and pushed again until the group is there. -/
def createRaftGroup (id : PartitionId) : World :=
  match w.pd.partitions.get id, w.groups.get id with
  | some p, none => { w with groups := w.groups.insert id ⟨p.range, w.peers p⟩ }
  | _, _ => w

/-- `apply_split`: the group of the parent cuts its range and the child's group is derived.  A boundary outside
the range is a no-op. -/
def applySplit (parent : MetaPartition) (childGroup : PartitionId) (boundary : PartitionBound) :
    Option World :=
  (w.groups.get parent.partitionId).map fun group =>
    match group.range.split (boundary.bucket, boundary.routingKey) with
    | none => w
    | some (left, right) =>
      let narrowed := w.groups.insert parent.partitionId { group with range := left }
      match w.groups.get childGroup with
      | some _ => { w with groups := narrowed }
      | none => { w with groups := narrowed.insert childGroup ⟨right, w.peers parent⟩ }

/-- `migrate_group_member`: the voters become those of the record, without `source` and with `target`. -/
def migrateGroupMember (partition : MetaPartition) (source target : NodeId) : Option World :=
  let voters := w.peers partition
  if target ∉ voters then none
  else
    let current := (insert source voters).erase target
    let swapped := (insert target current).erase source
    if swapped = ∅ then none
    else
      (w.groups.get partition.partitionId).map fun group =>
        { w with groups := w.groups.insert partition.partitionId { group with voters := swapped } }

end World

/-! ## Executing an operation -/

inductive Suggestion
  | failed
  | deferred
  | boundary (bound : PartitionBound)
deriving DecidableEq

structure Outcome where
  /-- Entries committed before the partition is looked up. -/
  before : List PdEntry
  suggested : Suggestion
  /-- Entries committed before the proposal. -/
  between : List PdEntry
  proposal : Answer
  push : Answer

/-- What an execution returned, left behind, and whether it changed the route of its partition. -/
structure Executed where
  ok : Bool
  world : World
  changed : Bool

/-- The entry changes the route epoch of the partition. -/
def changesRoute (pd : PdState) (entry : PdEntry) (id : PartitionId) : Bool :=
  ((pd.next entry).partitions.get id).map MetaPartition.epoch
    ≠ (pd.partitions.get id).map MetaPartition.epoch

/-- A call to a group, with the answer the world has for it. -/
def Answer.send (answer : Answer) (push : World → Option World) (w : World) : Bool × World :=
  match push w, answer with
  | none, _ => (false, w)
  | some pushed, .ok => (true, pushed)
  | some pushed, .failed took => (false, if took then pushed else w)

/-- Propose an entry for a partition and, when it applies, tell the group.  A rejected entry ends the execution
without an error. -/
def drive (w : World) (entry : PdEntry) (id : PartitionId) (o : Outcome)
    (onResult : ApplyResult → Option (World → Option World)) : Executed :=
  match o.proposal with
  | .failed took =>
    ⟨false, if took then w.next entry else w, took && changesRoute w.pd entry id⟩
  | .ok =>
    match w.pd.applyCommand entry with
    | .error _ => ⟨false, w, false⟩
    | .ok (.Rejected _, _) => ⟨true, w.next entry, changesRoute w.pd entry id⟩
    | .ok (result, _) =>
      match onResult result with
      | none => ⟨false, w.next entry, changesRoute w.pd entry id⟩
      | some push =>
        let sent := o.push.send push (w.next entry)
        ⟨sent.1, sent.2, changesRoute w.pd entry id⟩

def splitPush (p : MetaPartition) (bound : PartitionBound) :
    ApplyResult → Option (World → Option World)
  | .PartitionSplit childId _ => some fun w => w.applySplit p childId bound
  | _ => none

def executeSplit (w : World) (p : MetaPartition) (o : Outcome) : Executed :=
  match o.suggested with
  | .failed => ⟨false, w, false⟩
  | .deferred => ⟨true, w, false⟩
  | .boundary bound =>
    drive (w.advance o.between) (.SplitPartition ⟨p.partitionId, bound⟩) p.partitionId o
      (splitPush p bound)

/-- The record is read again after the swap. -/
def migratePush (p : MetaPartition) (source target : NodeId) :
    ApplyResult → Option (World → Option World)
  | .PartitionMigrated _ | .Applied => some fun w =>
    w.migrateGroupMember ((w.pd.partitions.get p.partitionId).getD p) source target
  | _ => none

def executeMigrate (w : World) (p : MetaPartition) (source target : NodeId) (o : Outcome) :
    Executed :=
  drive (w.advance o.between) (.MigratePartition ⟨p.partitionId, source, target⟩) p.partitionId o
    (migratePush p source target)

def execute (w : World) (p : MetaPartition) (o : Outcome) : OpKind → Executed
  | .Split => executeSplit w p o
  | .Migrate source target => executeMigrate w p source target o

/-! ## A sweep -/

/-- The world, the controller, and the operations that changed a route since the last sweep began. -/
structure Sched where
  world : World
  controller : OperatorController
  changed : List PartitionOp

/-- One admitted operation. -/
def executeOp (script : PartitionId → Outcome) (s : Sched) (op : PartitionOp) : Sched :=
  let o := script op.partitionId
  let w := s.world.advance o.before
  match w.pd.partitions.get op.partitionId with
  | none => { s with world := w, controller := s.controller.complete op.partitionId }
  | some partition =>
    let executed := execute w partition o op.kind
    { world := executed.world
      controller :=
        if executed.ok then s.controller else s.controller.complete op.partitionId
      changed := if executed.changed then s.changed ++ [op] else s.changed }

/-- Free the slot of a partition that is gone or has another epoch than its operation started from. -/
def clearSlot (partitions : PartitionIndex) (c : OperatorController) (pid : PartitionId) :
    OperatorController :=
  match partitions.get pid with
  | some p => if c.isStale pid p.epoch then c.complete pid else c
  | none => c.complete pid

def clearStale (partitions : PartitionIndex) (c : OperatorController) : OperatorController :=
  (c.running.map PartitionOp.partitionId).foldl (clearSlot partitions) c

/-- The decisions of a sweep. -/
def plannedSplits (cfg : SchedulerConfig) (totalBytes : PartitionId → Option UInt64) (pd : PdState) :
    List SplitDecision :=
  planSplits (gatherLoads pd.partitions.list totalBytes) cfg

def plannedMigrations (cfg : SchedulerConfig) (totalBytes : PartitionId → Option UInt64)
    (pd : PdState) : List MigrateDecision :=
  planMigrations (gatherLoads pd.partitions.list totalBytes) (gatherMetaNodes pd.nodes) cfg

/-- The first half of a sweep: clear, plan, admit. -/
def admitted (cfg : SchedulerConfig) (totalBytes : PartitionId → Option UInt64) (s : Sched) :
    OperatorController × List PartitionOp :=
  (clearStale s.world.pd.partitions s.controller).admitOps (plannedSplits cfg totalBytes s.world.pd)
    (plannedMigrations cfg totalBytes s.world.pd)

def startSweep (cfg : SchedulerConfig) (totalBytes : PartitionId → Option UInt64) (s : Sched) : Sched :=
  ⟨s.world, (admitted cfg totalBytes s).1, []⟩

def sweep (cfg : SchedulerConfig) (totalBytes : PartitionId → Option UInt64)
    (script : PartitionId → Outcome) (s : Sched) : Sched :=
  run (executeOp script) (startSweep cfg totalBytes s) (admitted cfg totalBytes s).2

end Epoch.Pd
