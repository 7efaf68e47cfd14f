import Epoch.Pd.Cluster

/-!
# Jobs (`epoch-pd/src/job/{types,mod,commit,driver}.rs`)

A job is created, assigned to a coordinator with a lease, moved forward by progress calls and completed.
Apart from creation every command edits one record in place (`applyMutate`), and no command says who sent
it.

The dispatcher runs on the leader: it reads which jobs need a coordinator, picks one for each and proposes
the assignments.  The jobs it read may have moved on when an assignment is applied.
-/

namespace Epoch.Pd

inductive JobKind
  | RepairDisk (diskId : DiskId)
  | DropDisk (diskId : DiskId)
  | Balance (diskId : DiskId)
  | InspectRound
  | GcRound
deriving DecidableEq

/-- The disk whose host must not coordinate the job. -/
def JobKind.suspectDisk : JobKind → Option DiskId
  | .RepairDisk diskId => some diskId
  | .DropDisk diskId => some diskId
  | .Balance _ | .InspectRound | .GcRound => none

inductive JobState
  | Created
  | Running
  | Done
deriving DecidableEq

structure Job where
  id : UInt32
  kind : JobKind
  state : JobState
  coordinator : Option NodeId
  leaseExpiryMillis : UInt64
  progressWatermark : UInt64
deriving DecidableEq

namespace Job

variable (job : Job)

def leaseExpired (nowMillis : UInt64) : Bool :=
  job.state = .Running ∧ job.leaseExpiryMillis < nowMillis

def needsCoordinator (nowMillis : UInt64) : Bool :=
  match job.state with
  | .Created => true
  | .Running => job.leaseExpiryMillis < nowMillis
  | .Done => false

end Job

inductive JobCommand
  | Create (kind : JobKind)
  | Assign (jobId : UInt32) (coordinator : NodeId) (leaseExpiryMillis : UInt64)
  | RenewLease (jobId : UInt32) (leaseExpiryMillis : UInt64)
  | AdvanceWatermark (jobId : UInt32) (watermark : UInt64) (leaseExpiryMillis : UInt64)
  | Complete (jobId : UInt32)
deriving DecidableEq

inductive JobOutcome
  | Created (jobId : UInt32)
  | Applied
  | Rejected (reason : RejectReason)
deriving DecidableEq

structure JobIndex where
  jobs : OrdMap UInt32 Job
  nextId : UInt32

namespace JobIndex

def new : JobIndex := ⟨.empty, firstId⟩

variable (index : JobIndex)

def get (id : UInt32) : Option Job := index.jobs.get id

def list : List Job := index.jobs.toList.map Prod.snd

def applyCreate (kind : JobKind) : Except SmError (JobOutcome × JobIndex) :=
  (advanceCounter index.nextId).map fun nextId =>
    let job : Job := ⟨index.nextId, kind, .Created, none, 0, 0⟩
    (.Created index.nextId, ⟨index.jobs.insert index.nextId job, nextId⟩)

def applyMutate (jobId : UInt32) (mutate : Job → Job) : JobOutcome × JobIndex :=
  match index.jobs.get jobId with
  | none => (.Rejected .NotFound, index)
  | some job => (.Applied, { index with jobs := index.jobs.insert jobId (mutate job) })

/-- A job is (re)assigned whatever state it is in. -/
def assign (coordinator : NodeId) (leaseExpiryMillis : UInt64) (job : Job) : Job :=
  { job with state := .Running, coordinator := some coordinator, leaseExpiryMillis }

/-- Only a running job's lease renews. -/
def renewLease (leaseExpiryMillis : UInt64) (job : Job) : Job :=
  if job.state = .Running then { job with leaseExpiryMillis } else job

/-- A checkpoint raises the watermark and the lease, and lowers neither. -/
def advanceWatermark (watermark leaseExpiryMillis : UInt64) (job : Job) : Job :=
  let progressed :=
    if job.progressWatermark < watermark then { job with progressWatermark := watermark } else job
  if progressed.leaseExpiryMillis < leaseExpiryMillis then { progressed with leaseExpiryMillis }
  else progressed

def complete (job : Job) : Job := { job with state := .Done }

def apply : JobCommand → Except SmError (JobOutcome × JobIndex)
  | .Create kind => index.applyCreate kind
  | .Assign jobId coordinator lease => .ok (index.applyMutate jobId (assign coordinator lease))
  | .RenewLease jobId lease => .ok (index.applyMutate jobId (renewLease lease))
  | .AdvanceWatermark jobId watermark lease =>
    .ok (index.applyMutate jobId (advanceWatermark watermark lease))
  | .Complete jobId => .ok (index.applyMutate jobId complete)

/-- Jobs without a coordinator or with a lapsed lease, in id order. -/
def needingCoordinator (nowMillis : UInt64) : List Job :=
  index.list.filter fun job => job.needsCoordinator nowMillis

end JobIndex

/-! ## Commits under a job -/

inductive CommitRejection
  | UnknownJob
  | NotRunning
  | NotCoordinator
  | EpochMismatch
deriving DecidableEq

/-- `authorize_commit`; `none` when the commit may apply. -/
def authorizeCommit (job : Option Job) (committer : NodeId) (commitEpoch expectedEpoch : UInt64) :
    Option CommitRejection :=
  match job with
  | none => some .UnknownJob
  | some job =>
    if job.state ≠ .Running then some .NotRunning
    else if job.coordinator ≠ some committer then some .NotCoordinator
    else if commitEpoch ≠ expectedEpoch then some .EpochMismatch
    else none

/-! ## Dispatch -/

def jobLeaseMillis : UInt64 := 30000

/-- The live data node with the least id, other than the excluded one. -/
def pickCoordinator (nodes : List Node) (exclude : Option NodeId) : Option NodeId :=
  (((nodes.filter fun node => node.status = .Live ∧ node.roles.contains .DATA).map
    Node.nodeId).filter fun id => some id ≠ exclude).min?

/-- The assignments one dispatch sweep proposes, from the jobs, nodes and disks it reads. -/
def sweepAssignments (jobs : JobIndex) (nodes : NodeIndex) (disks : DiskIndex) (nowMillis : UInt64) :
    List JobCommand :=
  (jobs.needingCoordinator nowMillis).filterMap fun job =>
    let exclude := (job.kind.suspectDisk.bind disks.get).map Disk.nodeId
    (pickCoordinator nodes.list exclude).map fun coordinator =>
      .Assign job.id coordinator
        (if nowMillis.toNat + jobLeaseMillis.toNat < 2 ^ 64 then nowMillis + jobLeaseMillis
          else 0xFFFFFFFFFFFFFFFF)

end Epoch.Pd
