import Epoch.Lib.Bytes
import Epoch.Lib.OrdMap

/-!
# Nodes and disks (`epoch-pd/src/cluster/{id_record,node,disk}.rs`)

A manager of PD keeps its records in an index and hands out ids from a counter; both are replicated.  A
command that does not fit the committed state is rejected, which is an ordinary result; an `SmError` is
not, it stops the state machine.  The storage below never fails here, so the errors that remain are the
ones the managers raise themselves.

Node and disk records go through the same kind of status change (`transition`), each with its own
table of permitted moves.
-/

namespace Epoch.Pd

abbrev NodeId := UInt32
abbrev DiskId := UInt32

inductive RejectReason
  | NotFound
  | InvalidTransition
  | NotRemovable
  | NodeNotFound
  | InvalidChunkPlan
  | DiskUnavailable
  | AffinityViolation
deriving DecidableEq

/-- A state-machine error (`sm_corrupt`), with its message. -/
structure SmError where
  message : String
deriving DecidableEq

/-! ## Id-keyed records -/

def firstId : UInt32 := 1

def advanceCounter (current : UInt32) : Except SmError UInt32 :=
  if current.toNat + 1 < 2 ^ 32 then .ok (current + 1) else .error ⟨"id counter overflow"⟩

/-- A status change: a request for the present status does nothing, one that the table does not permit
is rejected. -/
def transition {ρ σ : Type} [DecidableEq σ] (status : ρ → σ) (withStatus : ρ → σ → ρ)
    (canTransitionTo : σ → σ → Bool) (records : OrdMap UInt32 ρ) (id : UInt32) (next : σ) :
    Option RejectReason × OrdMap UInt32 ρ :=
  match records.get id with
  | none => (some .NotFound, records)
  | some current =>
    if status current = next then (none, records)
    else if canTransitionTo (status current) next then
      (none, records.insert id (withStatus current next))
    else (some .InvalidTransition, records)

section Transition

variable {ρ σ : Type} [DecidableEq σ] {status : ρ → σ} {withStatus : ρ → σ → ρ}
  {canTransitionTo : σ → σ → Bool} {records : OrdMap UInt32 ρ} {id : UInt32} {next : σ}

/-- A status change touches one record, and that one only in its status. -/
lemma get_transition (id' : UInt32) :
    (transition status withStatus canTransitionTo records id next).2.get id' = records.get id' ∨
      id' = id ∧ ∃ current, records.get id = some current ∧ status current ≠ next
        ∧ canTransitionTo (status current) next = true
        ∧ (transition status withStatus canTransitionTo records id next).2.get id'
          = some (withStatus current next) := by
  cases hget : records.get id with
  | none => simp [transition, hget]
  | some current =>
    by_cases hsame : status current = next
    · simp [transition, hget, hsame]
    · by_cases hcan : canTransitionTo (status current) next = true
      · by_cases hid : id' = id
        · right
          subst hid
          refine ⟨rfl, current, rfl, hsame, hcan, ?_⟩
          simp [transition, hget, hsame, hcan]
        · left
          simp [transition, hget, hsame, hcan, Ne.symm hid]
      · left
        simp [transition, hget, hsame, hcan]

end Transition

/-! ## Nodes -/

/-- A bit set of roles. -/
structure RoleSet where
  bits : UInt8
deriving DecidableEq

namespace RoleSet

def DATA : RoleSet := ⟨1⟩
def GATEWAY : RoleSet := ⟨2⟩
def META : RoleSet := ⟨4⟩

def contains (self other : RoleSet) : Bool := self.bits &&& other.bits = other.bits

end RoleSet

inductive NodeStatus
  | Starting
  | Live
  | Offline
  | Lost
  | Decommissioned
deriving DecidableEq

def NodeStatus.canTransitionTo (self next : NodeStatus) : Bool :=
  if self = next then true
  else
    match self, next with
    | .Starting, .Live | .Starting, .Offline | .Starting, .Decommissioned => true
    | .Live, .Offline | .Live, .Decommissioned => true
    | .Offline, .Live | .Offline, .Lost | .Offline, .Decommissioned => true
    | .Lost, .Live | .Lost, .Decommissioned => true
    | _, _ => false

structure Node where
  nodeId : NodeId
  addr : String
  az : String
  rack : String
  roles : RoleSet
  status : NodeStatus
deriving DecidableEq

structure RegisterNode where
  addr : String
  az : String
  rack : String
  roles : RoleSet
deriving DecidableEq

structure UpdateNodeStatus where
  nodeId : NodeId
  status : NodeStatus
deriving DecidableEq

structure RemoveNode where
  nodeId : NodeId
deriving DecidableEq

structure NodeIndex where
  nodes : OrdMap NodeId Node
  nextId : UInt32

namespace NodeIndex

def new : NodeIndex := ⟨.empty, firstId⟩

variable (index : NodeIndex)

def get (nodeId : NodeId) : Option Node := index.nodes.get nodeId

def contains (nodeId : NodeId) : Bool := (index.get nodeId).isSome

def list : List Node := index.nodes.toList.map Prod.snd

def findByAddr (addr : String) : Option NodeId :=
  (index.list.find? fun node => node.addr = addr).map Node.nodeId

/-- Idempotent by address. -/
def applyRegister (cmd : RegisterNode) : Except SmError (NodeId × NodeIndex) :=
  match index.findByAddr cmd.addr with
  | some existing => .ok (existing, index)
  | none =>
    (advanceCounter index.nextId).map fun nextId =>
      let node : Node := ⟨index.nextId, cmd.addr, cmd.az, cmd.rack, cmd.roles, .Starting⟩
      (index.nextId, ⟨index.nodes.insert index.nextId node, nextId⟩)

def applyUpdateStatus (cmd : UpdateNodeStatus) : Option RejectReason × NodeIndex :=
  let (reject, nodes) := transition Node.status (fun node status => { node with status })
    NodeStatus.canTransitionTo index.nodes cmd.nodeId cmd.status
  (reject, { index with nodes })

/-- Only a decommissioned node may go. -/
def applyRemove (cmd : RemoveNode) : Option RejectReason × NodeIndex :=
  match index.nodes.get cmd.nodeId with
  | none => (some .NotFound, index)
  | some current =>
    if current.status ≠ .Decommissioned then (some .NotRemovable, index)
    else (none, { index with nodes := index.nodes.erase cmd.nodeId })

end NodeIndex

/-! ## Disks -/

inductive DiskStatus
  | Normal
  | Broken
  | Repairing
  | Repaired
  | Draining
  | Dropped
deriving DecidableEq

def DiskStatus.canTransitionTo (self next : DiskStatus) : Bool :=
  if self = next then true
  else
    match self, next with
    | .Normal, .Broken | .Normal, .Draining | .Normal, .Dropped => true
    | .Broken, .Repairing | .Broken, .Dropped => true
    | .Repairing, .Repaired | .Repairing, .Dropped => true
    | .Repaired, .Normal | .Repaired, .Dropped => true
    | .Draining, .Dropped => true
    | _, _ => false

structure Disk where
  diskId : DiskId
  nodeId : NodeId
  az : String
  rack : String
  path : String
  total : UInt64
  status : DiskStatus
deriving DecidableEq

structure RegisterDisk where
  nodeId : NodeId
  az : String
  rack : String
  path : String
  total : UInt64
deriving DecidableEq

structure UpdateDiskStatus where
  diskId : DiskId
  status : DiskStatus
deriving DecidableEq

structure DiskIndex where
  disks : OrdMap DiskId Disk
  nextId : UInt32

namespace DiskIndex

def new : DiskIndex := ⟨.empty, firstId⟩

variable (index : DiskIndex)

def get (diskId : DiskId) : Option Disk := index.disks.get diskId

def list : List Disk := index.disks.toList.map Prod.snd

def findByNodePath (nodeId : NodeId) (path : String) : Option DiskId :=
  (index.list.find? fun disk => disk.nodeId = nodeId ∧ disk.path = path).map Disk.diskId

/-- Idempotent by node and mount path. -/
def applyRegister (cmd : RegisterDisk) : Except SmError (DiskId × DiskIndex) :=
  match index.findByNodePath cmd.nodeId cmd.path with
  | some existing => .ok (existing, index)
  | none =>
    (advanceCounter index.nextId).map fun nextId =>
      let disk : Disk :=
        ⟨index.nextId, cmd.nodeId, cmd.az, cmd.rack, cmd.path, cmd.total, .Normal⟩
      (index.nextId, ⟨index.disks.insert index.nextId disk, nextId⟩)

def applyUpdateStatus (cmd : UpdateDiskStatus) : Option RejectReason × DiskIndex :=
  let (reject, disks) := transition Disk.status (fun disk status => { disk with status })
    DiskStatus.canTransitionTo index.disks cmd.diskId cmd.status
  (reject, { index with disks })

end DiskIndex

end Epoch.Pd
