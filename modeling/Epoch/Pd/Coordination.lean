import Epoch.Pd.State

/-!
# Who moves a job

A job is meant to go forward only, and only by the calls of its coordinator.  The commands do not say who
sent them.  `Assign` makes a finished job run again when it was decided before the job finished, it can set a
lower lease than the running one, and a coordinator that was replaced can still complete the job, raise its
watermark and extend its lease (`late_assignment_revives_job`).

`moves_forward_iff` is exact: the calls of a run all move their jobs forward if and only if no assignment
comes to a finished job or with a lower lease, no renewal with a lower lease, and a call of a node that is not
the coordinator has nothing to add.
-/

namespace Epoch.Pd

/-- A call that changes jobs, with the node that makes it. -/
inductive JobCall
  | create (kind : JobKind)
  /-- An assignment that a dispatch sweep decided on at some time. -/
  | dispatch (jobId : UInt32) (coordinator : NodeId) (leaseExpiryMillis : UInt64)
  | renew (caller : NodeId) (jobId : UInt32) (leaseExpiryMillis : UInt64)
  /-- `commit_job_progress`, received at the given time. -/
  | progress (caller : NodeId) (jobId : UInt32) (watermark : UInt64) (done : Bool)
      (nowMillis : UInt64)
deriving DecidableEq

/-- The expiry that a checkpoint at this time sets. -/
def checkpointLease (nowMillis : UInt64) : UInt64 :=
  if nowMillis.toNat + jobLeaseMillis.toNat < 2 ^ 64 then nowMillis + jobLeaseMillis
  else 0xFFFFFFFFFFFFFFFF

namespace JobCall

def command : JobCall → JobCommand
  | .create kind => .Create kind
  | .dispatch jobId coordinator lease => .Assign jobId coordinator lease
  | .renew _ jobId lease => .RenewLease jobId lease
  | .progress _ jobId watermark done nowMillis =>
    if done then .Complete jobId else .AdvanceWatermark jobId watermark (checkpointLease nowMillis)

/-- The node that makes the call; the dispatcher is none. -/
def caller : JobCall → Option NodeId
  | .create _ | .dispatch _ _ _ => none
  | .renew caller _ _ | .progress caller _ _ _ _ => some caller

end JobCall

namespace JobIndex

/-- The jobs after a command; an error leaves them. -/
def next (index : JobIndex) (cmd : JobCommand) : JobIndex :=
  match index.apply cmd with
  | .ok r => r.2
  | .error _ => index

def call (index : JobIndex) (c : JobCall) : JobIndex := index.next c.command

end JobIndex

/-- Only job commands change the jobs. -/
theorem jobs_next (state : PdState) (entry : PdEntry) :
    (state.next entry).jobs = match entry with
      | .Job cmd => state.jobs.next cmd
      | _ => state.jobs := by
  cases entry with
  | Job cmd =>
    rw [PdState.next]
    simp only [PdState.applyCommand, JobIndex.next]
    cases state.jobs.apply cmd with
    | error err => rfl
    | ok r =>
      obtain ⟨outcome, jobs⟩ := r
      cases outcome <;> rfl
  | _ => exact (PdState.untouched_next _).jobs (by simp [PdEntry.touches])

/-! ## Moving forward -/

/-- From one record of a job to a later one: done is final, and neither the watermark nor the lease of a running
job goes back. -/
structure Job.Forward (job job' : Job) : Prop where
  done : job.state = .Done → job'.state = .Done
  watermark : job.progressWatermark ≤ job'.progressWatermark
  lease : job.state = .Running → job'.state = .Running →
    job.leaseExpiryMillis ≤ job'.leaseExpiryMillis

lemma Job.Forward.refl (job : Job) : job.Forward job := ⟨fun h => h, le_rfl, fun _ _ => le_rfl⟩

/-- The call is made by a node other than the job's coordinator. -/
def Job.Superseded (job : Job) (c : JobCall) : Prop :=
  ∃ caller, c.caller = some caller ∧ job.coordinator ≠ some caller

/-- Every job goes forward, and stays as it is when the call is not its coordinator's. -/
def MovesForward (index : JobIndex) (c : JobCall) : Prop :=
  ∀ id job, index.get id = some job →
    ∃ job', (index.call c).get id = some job' ∧ job.Forward job' ∧ (job.Superseded c → job' = job)

/-- An assignment finds its job unfinished and does not lower a running lease; a renewal does not lower it
either; a call of another node than the coordinator has nothing to add. -/
def Lawful (index : JobIndex) : JobCall → Prop
  | .create _ => True
  | .dispatch jobId _ lease => ∀ job ∈ index.get jobId,
      job.state ≠ .Done ∧ (job.state = .Running → job.leaseExpiryMillis ≤ lease)
  | .renew caller jobId lease => ∀ job ∈ index.get jobId, job.state = .Running →
      job.leaseExpiryMillis ≤ lease
        ∧ (job.coordinator ≠ some caller → lease = job.leaseExpiryMillis)
  | .progress caller jobId watermark done nowMillis => ∀ job ∈ index.get jobId,
      job.coordinator ≠ some caller →
        if done then job.state = .Done
        else watermark ≤ job.progressWatermark ∧ checkpointLease nowMillis ≤ job.leaseExpiryMillis

instance (index : JobIndex) (c : JobCall) : Decidable (Lawful index c) := by
  cases c <;> simp only [Lawful] <;> infer_instance

namespace JobIndex

variable {index : JobIndex}

/-- Ids in use are below the next one. -/
def Allocated (index : JobIndex) : Prop :=
  ∀ id job, index.get id = some job → id.toNat < index.nextId.toNat

lemma get_mutate {jobId : UInt32} {mutate : Job → Job} {id : UInt32} :
    (index.applyMutate jobId mutate).2.get id
      = if jobId = id then (index.get id).map mutate else index.get id := by
  rw [applyMutate]
  by_cases hid : jobId = id
  · subst hid
    rw [if_pos rfl]
    cases hget : index.jobs.get jobId with
    | none => simp [get, hget]
    | some job => simp [get, hget]
  · rw [if_neg hid]
    cases hget : index.jobs.get jobId with
    | none => rfl
    | some job => exact (OrdMap.get_insert _ _ _ _).trans (if_neg hid)

lemma nextId_mutate (jobId : UInt32) (mutate : Job → Job) :
    (index.applyMutate jobId mutate).2.nextId = index.nextId := by
  rw [applyMutate]
  cases index.jobs.get jobId <;> rfl

/-- A creation adds a job under the next id or fails. -/
lemma next_create (kind : JobKind) :
    index.next (.Create kind) = index ∨
      index.nextId.toNat + 1 < 2 ^ 32
        ∧ index.next (.Create kind) = ⟨index.jobs.insert index.nextId
          ⟨index.nextId, kind, .Created, none, 0, 0⟩, index.nextId + 1⟩ := by
  rw [next]
  simp only [apply, applyCreate, advanceCounter]
  by_cases hroom : index.nextId.toNat + 1 < 2 ^ 32
  · exact Or.inr ⟨hroom, by rw [if_pos hroom]; rfl⟩
  · exact Or.inl (by rw [if_neg hroom]; rfl)

/-- The edit that a command makes to its job. -/
def edit : JobCommand → Option (UInt32 × (Job → Job))
  | .Create _ => none
  | .Assign jobId coordinator lease => some (jobId, assign coordinator lease)
  | .RenewLease jobId lease => some (jobId, renewLease lease)
  | .AdvanceWatermark jobId watermark lease => some (jobId, advanceWatermark watermark lease)
  | .Complete jobId => some (jobId, complete)

lemma next_eq_mutate {cmd : JobCommand} {e : UInt32 × (Job → Job)} (h : edit cmd = some e) :
    index.next cmd = (index.applyMutate e.1 e.2).2 := by
  cases cmd <;> cases h <;> rfl

lemma Allocated.next (h : index.Allocated) (cmd : JobCommand) : (index.next cmd).Allocated := by
  intro id job hget
  cases hedit : edit cmd with
  | some e =>
    rw [next_eq_mutate hedit] at hget ⊢
    rw [nextId_mutate]
    rw [get_mutate] at hget
    split_ifs at hget with hid
    · obtain ⟨job', hjob', -⟩ := Option.map_eq_some_iff.mp hget
      exact h id job' hjob'
    · exact h id job hget
  | none =>
    cases cmd with
    | Create kind =>
      rcases @next_create index kind with hsame | ⟨hroom, hnext⟩
      · rw [hsame] at hget ⊢
        exact h id job hget
      · have hsucc : (index.nextId + 1).toNat = index.nextId.toNat + 1 := by
          rw [UInt32.toNat_add]
          exact Nat.mod_eq_of_lt hroom
        rw [hnext] at hget ⊢
        simp only [get, OrdMap.get_insert] at hget ⊢
        rw [hsucc]
        split_ifs at hget with hid
        · rw [← hid]
          exact Nat.lt_succ_self _
        · exact (h id job hget).trans (Nat.lt_succ_self _)
    | _ => cases hedit

/-- What a call does to every job is what its edit does to one. -/
lemma movesForward_iff_edit {c : JobCall} {e : UInt32 × (Job → Job)}
    (h : edit c.command = some e) :
    MovesForward index c ↔ ∀ job ∈ index.get e.1,
      job.Forward (e.2 job) ∧ (job.Superseded c → e.2 job = job) := by
  rw [MovesForward, call, next_eq_mutate h]
  constructor
  · intro hall job hjob
    obtain ⟨job', hjob', hforward, hsame⟩ := hall e.1 job hjob
    rw [get_mutate, if_pos rfl, Option.mem_def.mp hjob, Option.map_some] at hjob'
    cases hjob'
    exact ⟨hforward, hsame⟩
  · intro hone id job hjob
    rw [get_mutate]
    by_cases hid : e.1 = id
    · subst hid
      rw [if_pos rfl, hjob]
      exact ⟨e.2 job, rfl, hone job hjob⟩
    · rw [if_neg hid]
      exact ⟨job, hjob, .refl job, fun _ => rfl⟩

/-! The four edits. -/

section Edits

variable {job : Job} {coordinator caller : NodeId} {lease watermark : UInt64}

lemma forward_assign : job.Forward (assign coordinator lease job)
    ↔ job.state ≠ .Done ∧ (job.state = .Running → job.leaseExpiryMillis ≤ lease) := by
  constructor
  · intro h
    exact ⟨fun hdone => JobState.noConfusion (h.done hdone), fun hrun => h.lease hrun rfl⟩
  · rintro ⟨hdone, hlease⟩
    exact ⟨fun h => absurd h hdone, le_rfl, fun hrun _ => hlease hrun⟩

lemma forward_renewLease : job.Forward (renewLease lease job)
    ↔ (job.state = .Running → job.leaseExpiryMillis ≤ lease) := by
  rw [renewLease]
  by_cases hrun : job.state = .Running
  · rw [if_pos hrun]
    exact ⟨fun h _ => h.lease hrun hrun, fun h => ⟨fun hd => hd, le_rfl, fun _ _ => h hrun⟩⟩
  · rw [if_neg hrun]
    exact ⟨fun _ h => absurd h hrun, fun _ => .refl job⟩

lemma renewLease_eq_iff : renewLease lease job = job
    ↔ (job.state = .Running → lease = job.leaseExpiryMillis) := by
  rw [renewLease]
  by_cases hrun : job.state = .Running
  · rw [if_pos hrun]
    constructor
    · exact fun h _ => congrArg Job.leaseExpiryMillis h
    · intro h
      rw [h hrun]
  · rw [if_neg hrun]
    exact ⟨fun _ h => absurd h hrun, fun _ => rfl⟩

lemma advanceWatermark_eq : advanceWatermark watermark lease job
    = { job with
      progressWatermark := max job.progressWatermark watermark
      leaseExpiryMillis := max job.leaseExpiryMillis lease } := by
  by_cases hw : job.progressWatermark < watermark <;> by_cases hl : job.leaseExpiryMillis < lease
  · simp [advanceWatermark, hw, hl, max_eq_right hw.le, max_eq_right hl.le]
  · simp [advanceWatermark, hw, hl, max_eq_right hw.le, max_eq_left (not_lt.mp hl)]
  · simp [advanceWatermark, hw, hl, max_eq_left (not_lt.mp hw), max_eq_right hl.le]
  · simp [advanceWatermark, hw, hl, max_eq_left (not_lt.mp hw), max_eq_left (not_lt.mp hl)]

lemma forward_advanceWatermark : job.Forward (advanceWatermark watermark lease job) := by
  rw [advanceWatermark_eq]
  exact ⟨fun h => h, le_max_left _ _, fun _ _ => le_max_left _ _⟩

lemma advanceWatermark_eq_iff : advanceWatermark watermark lease job = job
    ↔ watermark ≤ job.progressWatermark ∧ lease ≤ job.leaseExpiryMillis := by
  rw [advanceWatermark_eq]
  constructor
  · intro h
    exact ⟨max_eq_left_iff.mp (congrArg Job.progressWatermark h),
      max_eq_left_iff.mp (congrArg Job.leaseExpiryMillis h)⟩
  · rintro ⟨hw, hl⟩
    rw [max_eq_left hw, max_eq_left hl]

lemma forward_complete : job.Forward (complete job) :=
  ⟨fun _ => rfl, le_rfl, fun _ h => JobState.noConfusion h⟩

lemma complete_eq_iff : complete job = job ↔ job.state = .Done :=
  ⟨fun h => (congrArg Job.state h).symm, fun h => by rw [complete, ← h]⟩

end Edits

lemma superseded_renew {job : Job} {caller : NodeId} {jobId : UInt32} {lease : UInt64} :
    job.Superseded (.renew caller jobId lease) ↔ job.coordinator ≠ some caller :=
  ⟨fun ⟨_, hcaller, h⟩ => Option.some.inj hcaller ▸ h, fun h => ⟨caller, rfl, h⟩⟩

lemma superseded_progress {job : Job} {caller : NodeId} {jobId : UInt32} {watermark now : UInt64}
    {done : Bool} :
    job.Superseded (.progress caller jobId watermark done now) ↔ job.coordinator ≠ some caller :=
  ⟨fun ⟨_, hcaller, h⟩ => Option.some.inj hcaller ▸ h, fun h => ⟨caller, rfl, h⟩⟩

/-- A creation touches no job that is there. -/
lemma movesForward_create (h : index.Allocated) (kind : JobKind) :
    MovesForward index (.create kind) := by
  intro id job hjob
  rw [call, JobCall.command]
  rcases @next_create index kind with hsame | ⟨-, hnext⟩
  · rw [hsame]
    exact ⟨job, hjob, .refl job, fun _ => rfl⟩
  · have hfresh : index.nextId ≠ id := fun heq => by
      have hlt := h id job hjob
      rw [heq] at hlt
      exact lt_irrefl _ hlt
    rw [hnext]
    exact ⟨job, (OrdMap.get_insert _ _ _ _).trans ((if_neg hfresh).trans hjob), .refl job,
      fun _ => rfl⟩

/-- One call moves the jobs forward exactly when it is lawful. -/
theorem movesForward_iff (h : index.Allocated) (c : JobCall) :
    MovesForward index c ↔ Lawful index c := by
  cases c with
  | create kind => exact ⟨fun _ => trivial, fun _ => movesForward_create h kind⟩
  | dispatch jobId coordinator lease =>
    rw [movesForward_iff_edit (c := .dispatch jobId coordinator lease) rfl, Lawful]
    refine forall₂_congr fun job _ => ?_
    rw [forward_assign]
    exact and_iff_left fun hsuper => nomatch hsuper.choose_spec.1
  | renew caller jobId lease =>
    rw [movesForward_iff_edit (c := .renew caller jobId lease) rfl, Lawful]
    refine forall₂_congr fun job _ => ?_
    rw [forward_renewLease, superseded_renew, renewLease_eq_iff]
    tauto
  | progress caller jobId watermark done now =>
    cases done with
    | true =>
      rw [movesForward_iff_edit (c := .progress caller jobId watermark true now) rfl, Lawful]
      refine forall₂_congr fun job _ => ?_
      simp only [superseded_progress, if_true, complete_eq_iff]
      exact and_iff_right forward_complete
    | false =>
      rw [movesForward_iff_edit (c := .progress caller jobId watermark false now) rfl, Lawful]
      refine forall₂_congr fun job _ => ?_
      simp only [superseded_progress, Bool.false_eq_true, if_false, advanceWatermark_eq_iff]
      exact and_iff_right forward_advanceWatermark

end JobIndex

/-! ## Runs -/

open JobIndex in
/-- The calls of a run all move every job forward, and none of another node than the coordinator changes one,
if and only if each is lawful in the state it comes to. -/
theorem moves_forward_iff (calls : List JobCall) :
    Along JobIndex.call MovesForward JobIndex.new calls
      ↔ Along JobIndex.call Lawful JobIndex.new calls := by
  have hnew : JobIndex.new.Allocated := fun id job h => by simp [JobIndex.new, JobIndex.get] at h
  generalize JobIndex.new = index at hnew ⊢
  induction calls generalizing index with
  | nil => exact Iff.rfl
  | cons c calls ih => exact and_congr (movesForward_iff hnew c) (ih (index.call c) (hnew.next c.command))

open JobIndex in
/-- A job is assigned, checkpointed, reassigned after its lease ran out, and finished by the new coordinator. -/
def handedOver : List JobCall :=
  [.create .GcRound, .dispatch 1 1 30000, .progress 1 1 5 false 10000, .dispatch 1 2 80000,
    .progress 1 1 4 false 0, .progress 2 1 9 false 60000, .progress 2 1 9 true 60000]

theorem moves_forward_demo : Along JobIndex.call MovesForward JobIndex.new handedOver :=
  (moves_forward_iff handedOver).mpr (by decide +kernel)

/-- Two data nodes, a job that node 1 coordinates until 30000, and node 1 goes offline. -/
def coordinatorLost : List PdEntry :=
  [.RegisterNode ⟨"n1", "az", "r1", .DATA⟩, .RegisterNode ⟨"n2", "az", "r2", .DATA⟩,
    .UpdateNodeStatus ⟨1, .Live⟩, .UpdateNodeStatus ⟨2, .Live⟩, .Job (.Create .GcRound),
    .Job (.Assign 1 1 30000), .UpdateNodeStatus ⟨1, .Offline⟩]

/-- A sweep at 40000 decides to assign the job to node 2.  If node 1's completion is applied first, the assignment
makes the finished job run again; if it is applied after the assignment, it ends the job of node 2. -/
theorem late_assignment_revives_job :
    let state := run PdState.next .new coordinatorLost
    let completion := (JobCall.progress 1 1 5 true 40000).command
    let finished := state.next (.Job completion)
    let reassigned := state.next (.Job (.Assign 1 2 70000))
    sweepAssignments state.jobs state.nodes state.disks 40000 = [.Assign 1 2 70000]
      ∧ (finished.jobs.get 1).map Job.state = some .Done
      ∧ ((finished.next (.Job (.Assign 1 2 70000))).jobs.get 1).map Job.state = some .Running
      ∧ reassigned.jobs.get 1 = some ⟨1, .GcRound, .Running, some 2, 70000, 0⟩
      ∧ (reassigned.next (.Job completion)).jobs.get 1
        = some ⟨1, .GcRound, .Done, some 2, 70000, 0⟩ := by
  decide +kernel

end Epoch.Pd
