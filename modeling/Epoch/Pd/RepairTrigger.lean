import Epoch.Pd.Coordination
import Epoch.Pd.Heartbeat
import Epoch.Pd.Reachable

/-!
# The repair trigger (`epoch-pd/src/journal/client.rs`, `job/driver.rs`)

A tick of the leader takes failed and draining disks through their life in three sweeps: `sweep_broken_disks`
marks a disk that a heartbeat flags and starts its repair, `sweep_completed_repairs` retires a disk whose
repair is done, `sweep_draining_disks` starts and ends the evacuation of a draining one.

The tick is a state machine (`Phase`): it reads the committed state, decides, and proposes.  Between any two
of these actions others commit their entries, and the leader may be gone; a proposal that is answered with an
error may have been committed or not.

A break is handled by three proposals, and later sweeps skip a disk that is not `Normal` any more.  When the
job is not created, nothing creates it later (`lost_job_is_never_started`); and a finished job is taken for a
finished repair however many shards are still bound.  `failed_disks_cared` says that without these two every
failed or draining disk with shards on it has an unfinished job of its kind after a tick whose proposals
succeed.
-/

namespace Epoch.Pd

/-! ## The tick -/

/-- Where a tick stands.  The lists are the disks that the sweep has still to look at. -/
inductive Phase
  | idle
  | broken (todo : List DiskId)
  /-- About to propose `Broken`. -/
  | marking (diskId : DiskId) (todo : List DiskId)
  /-- About to propose the repair job. -/
  | creating (diskId : DiskId) (todo : List DiskId)
  /-- About to propose `Repairing`. -/
  | repairing (diskId : DiskId) (todo : List DiskId)
  | completed (todo : List DiskId)
  /-- About to propose `Repaired`. -/
  | repaired (diskId : DiskId) (todo : List DiskId)
  /-- The draining disks are listed, the jobs not yet. -/
  | listed (todo : List DiskId)
  | draining (jobs : List Job) (todo : List DiskId)
  /-- About to propose the evacuation job. -/
  | evacuating (diskId : DiskId) (jobs : List Job) (todo : List DiskId)
  /-- About to propose `Dropped`. -/
  | retiring (diskId : DiskId) (jobs : List Job) (todo : List DiskId)
  | finished
deriving DecidableEq

/-- The disks of the finished repair jobs. -/
def repairedDisks (jobs : JobIndex) : List DiskId :=
  (jobs.list.filter fun job => job.state = .Done).filterMap fun job =>
    match job.kind with
    | .RepairDisk diskId => some diskId
    | _ => none

def drainingDisks (disks : DiskIndex) : List DiskId :=
  (disks.list.filter fun disk => disk.status = .Draining).map Disk.diskId

namespace Phase

/-- What a sweep decides from the state; a phase with a proposal has decided already. -/
def read (state : PdState) : Phase → Phase
  | .broken [] => .completed (repairedDisks state.jobs)
  | .broken (diskId :: todo) =>
    -- only a `Normal` disk is a fresh break
    if (state.disks.get diskId).map Disk.status = some .Normal then .marking diskId todo
    else .broken todo
  | .completed [] => .listed (drainingDisks state.disks)
  | .completed (diskId :: todo) =>
    if (state.disks.get diskId).map Disk.status ≠ some .Repairing then .completed todo
    else if state.chunks.shardSlotsOnDisk diskId ≠ [] then .completed todo
    else .repaired diskId todo
  | .listed todo => .draining state.jobs.list todo
  | .draining _ [] => .finished
  | .draining jobs (diskId :: todo) =>
    let hasJob := jobs.any fun job => job.kind = .DropDisk diskId ∧ job.state ≠ .Done
    let done := jobs.any fun job => job.kind = .DropDisk diskId ∧ job.state = .Done
    if !hasJob && !done then .evacuating diskId jobs todo
    else if done && (state.chunks.shardSlotsOnDisk diskId).isEmpty then .retiring diskId jobs todo
    else .draining jobs todo
  | phase => phase

/-- The entry that is proposed next. -/
def proposal : Phase → Option PdEntry
  | .marking diskId _ => some (.UpdateDiskStatus ⟨diskId, .Broken⟩)
  | .creating diskId _ => some (.Job (.Create (.RepairDisk diskId)))
  | .repairing diskId _ => some (.UpdateDiskStatus ⟨diskId, .Repairing⟩)
  | .repaired diskId _ => some (.UpdateDiskStatus ⟨diskId, .Repaired⟩)
  | .evacuating diskId _ _ => some (.Job (.Create (.DropDisk diskId)))
  | .retiring diskId _ _ => some (.UpdateDiskStatus ⟨diskId, .Dropped⟩)
  | _ => none

/-- Only the answer to the mark of a break matters for how the tick goes on. -/
def answered (ok : Bool) : Phase → Phase
  | .marking diskId todo => if ok then .creating diskId todo else .broken todo
  | .creating diskId todo => .repairing diskId todo
  | .repairing _ todo => .broken todo
  | .repaired _ todo => .completed todo
  | .evacuating _ jobs todo => .draining jobs todo
  | .retiring _ jobs todo => .draining jobs todo
  | phase => phase

end Phase

/-- The replicated state, the tick of the present leader, and whether all its proposals succeeded. -/
structure Trigger where
  pd : PdState
  phase : Phase
  clean : Bool

inductive TriggerEvent
  /-- Anyone else's entry is committed. -/
  | entry (entry : PdEntry)
  /-- A leader begins a tick, with what the heartbeats told it. -/
  | tick (tracker : HeartbeatTracker)
  /-- The leader is gone. -/
  | crash
  | read
  | propose (answer : Answer)

namespace Trigger

def new : Trigger := ⟨.new, .idle, true⟩

def step (t : Trigger) : TriggerEvent → Trigger
  | .entry entry =>
    { t with
      pd := t.pd.next entry
      phase := if t.phase = .finished then .idle else t.phase }
  | .tick tracker => ⟨t.pd, .broken (tracker.brokenDisks.map Prod.snd), true⟩
  | .crash => { t with phase := .idle }
  | .read => { t with phase := t.phase.read t.pd }
  | .propose answer =>
    match t.phase.proposal with
    | none => t
    | some entry =>
      match answer with
      | .ok =>
        let ok := (t.pd.applyCommand entry).isOk
        ⟨t.pd.next entry, t.phase.answered ok, t.clean && ok⟩
      | .failed took => ⟨if took then t.pd.next entry else t.pd, t.phase.answered false, false⟩

end Trigger

/-! ## Jobs of a kind -/

def hasJob (state : PdState) (kind : JobKind) : Prop :=
  ∃ job ∈ state.jobs.list, job.kind = kind

/-- Some job of the kind is not done. -/
def Unfinished (state : PdState) (kind : JobKind) : Prop :=
  ∃ job ∈ state.jobs.list, job.kind = kind ∧ job.state ≠ .Done

/-- The evacuation of the disk is under way or still to be started. -/
def DropPending (state : PdState) (diskId : DiskId) : Prop :=
  Unfinished state (.DropDisk diskId) ∨ ¬hasJob state (.DropDisk diskId)

instance (state : PdState) (kind : JobKind) : Decidable (hasJob state kind) :=
  inferInstanceAs (Decidable (∃ job ∈ state.jobs.list, _))

instance (state : PdState) (kind : JobKind) : Decidable (Unfinished state kind) :=
  inferInstanceAs (Decidable (∃ job ∈ state.jobs.list, _))

instance (state : PdState) (diskId : DiskId) : Decidable (DropPending state diskId) :=
  inferInstanceAs (Decidable (_ ∨ _))

variable {state : PdState} {index : JobIndex}

lemma JobIndex.mem_list_iff {job : Job} :
    job ∈ index.list ↔ ∃ id, index.get id = some job := by
  rw [JobIndex.list, List.mem_map]
  constructor
  · rintro ⟨⟨id, job'⟩, hmem, rfl⟩
    exact ⟨id, (OrdMap.mem_toList_iff _ _ _).mp hmem⟩
  · rintro ⟨id, hget⟩
    exact ⟨(id, job), (OrdMap.mem_toList_iff _ _ _).mpr hget, rfl⟩

/-- No edit changes the kind of a job, and only completing ends it. -/
lemma JobIndex.edit_spec {cmd : JobCommand} {e : UInt32 × (Job → Job)} (h : JobIndex.edit cmd = some e)
    (job : Job) : (e.2 job).kind = job.kind
      ∧ (cmd ≠ .Complete e.1 → job.state ≠ .Done → (e.2 job).state ≠ .Done) := by
  cases cmd with
  | Create kind => cases h
  | Assign jobId coordinator lease =>
    cases h
    exact ⟨rfl, fun _ _ hdone => JobState.noConfusion hdone⟩
  | RenewLease jobId lease =>
    cases h
    simp only [JobIndex.renewLease]
    split_ifs
    · exact ⟨rfl, fun _ hdone => hdone⟩
    · exact ⟨rfl, fun _ hdone => hdone⟩
  | AdvanceWatermark jobId watermark lease =>
    cases h
    dsimp only
    rw [JobIndex.advanceWatermark_eq]
    exact ⟨rfl, fun _ hdone => hdone⟩
  | Complete jobId =>
    cases h
    exact ⟨rfl, fun hne => absurd rfl hne⟩

/-- A job keeps its kind over a command, and unless it is completed it stays unfinished. -/
lemma JobIndex.get_next (halloc : index.Allocated) (cmd : JobCommand) {id : UInt32} {job : Job}
    (h : index.get id = some job) :
    ∃ job', (index.next cmd).get id = some job' ∧ job'.kind = job.kind
      ∧ (cmd ≠ .Complete id → job.state ≠ .Done → job'.state ≠ .Done) := by
  cases hedit : JobIndex.edit cmd with
  | some e =>
    rw [JobIndex.next_eq_mutate hedit, JobIndex.get_mutate]
    by_cases hid : e.1 = id
    · rw [if_pos hid, h]
      obtain ⟨hkind, hdone⟩ := JobIndex.edit_spec hedit job
      exact ⟨_, rfl, hkind, fun hne => hdone (hid ▸ hne)⟩
    · rw [if_neg hid]
      exact ⟨job, h, rfl, fun _ hdone => hdone⟩
  | none =>
    cases cmd with
    | Create kind =>
      refine ⟨job, ?_, rfl, fun _ hdone => hdone⟩
      rcases @JobIndex.next_create index kind with hsame | ⟨-, hnext⟩
      · rw [hsame]
        exact h
      · have hfresh : index.nextId ≠ id := fun heq => by
          have hlt := halloc id job h
          rw [heq] at hlt
          exact lt_irrefl _ hlt
        rw [hnext]
        exact (OrdMap.get_insert _ _ _ _).trans ((if_neg hfresh).trans h)
    | _ => cases hedit

/-- A job of the index after a command was there before, with its kind, or is new. -/
lemma JobIndex.exists_of_next (cmd : JobCommand) {id : UInt32} {job' : Job}
    (h : (index.next cmd).get id = some job') :
    (∃ job, index.get id = some job ∧ job.kind = job'.kind) ∨ job'.state ≠ .Done := by
  cases hedit : JobIndex.edit cmd with
  | some e =>
    left
    rw [JobIndex.next_eq_mutate hedit, JobIndex.get_mutate] at h
    split_ifs at h with hid
    · obtain ⟨job, hjob, heq⟩ := Option.map_eq_some_iff.mp h
      exact ⟨job, hjob, by rw [← heq, (JobIndex.edit_spec hedit job).1]⟩
    · exact ⟨job', h, rfl⟩
  | none =>
    cases cmd with
    | Create kind =>
      rcases @JobIndex.next_create index kind with hsame | ⟨-, hnext⟩
      · rw [hsame] at h
        exact Or.inl ⟨job', h, rfl⟩
      · rw [hnext] at h
        simp only [JobIndex.get, OrdMap.get_insert] at h
        split_ifs at h with hid
        · right
          rw [← Option.some.inj h]
          exact fun hdone => JobState.noConfusion hdone
        · exact Or.inl ⟨job', h, rfl⟩
    | _ => cases hedit

section Jobs

variable {state : PdState} {entry : PdEntry} {kind : JobKind}

/-- The entry completes no job of the kind. -/
def Spares (state : PdState) (entry : PdEntry) (kind : JobKind) : Prop :=
  ∀ id job, entry = .Job (.Complete id) → state.jobs.get id = some job → job.kind ≠ kind

lemma Unfinished.next (halloc : state.jobs.Allocated) (h : Unfinished state kind)
    (hspares : Spares state entry kind) : Unfinished (state.next entry) kind := by
  obtain ⟨job, hmem, hkind, hdone⟩ := h
  have hjobs := jobs_next state entry
  cases entry with
  | Job cmd =>
    obtain ⟨id, hget⟩ := JobIndex.mem_list_iff.mp hmem
    obtain ⟨job', hget', hkind', hkeep⟩ := JobIndex.get_next halloc cmd hget
    refine ⟨job', ?_, hkind'.trans hkind, hkeep (fun heq => ?_) hdone⟩
    · rw [hjobs]
      exact JobIndex.mem_list_iff.mpr ⟨id, hget'⟩
    · exact hspares id job (congrArg PdEntry.Job heq) hget hkind
  | _ =>
    refine ⟨job, ?_, hkind, hdone⟩
    rw [hjobs]
    exact hmem

lemma hasJob_next (halloc : state.jobs.Allocated) (entry : PdEntry) (h : hasJob state kind) :
    hasJob (state.next entry) kind := by
  obtain ⟨job, hmem, hkind⟩ := h
  have hjobs := jobs_next state entry
  cases entry with
  | Job cmd =>
    obtain ⟨id, hget⟩ := JobIndex.mem_list_iff.mp hmem
    obtain ⟨job', hget', hkind', -⟩ := JobIndex.get_next halloc cmd hget
    refine ⟨job', ?_, hkind'.trans hkind⟩
    rw [hjobs]
    exact JobIndex.mem_list_iff.mpr ⟨id, hget'⟩
  | _ =>
    refine ⟨job, ?_, hkind⟩
    rw [hjobs]
    exact hmem

lemma hasJob_of_next (h : hasJob (state.next entry) kind) :
    hasJob state kind ∨ Unfinished (state.next entry) kind := by
  obtain ⟨job', hmem, hkind⟩ := h
  have hjobs := jobs_next state entry
  cases entry with
  | Job cmd =>
    have hmem' := hmem
    rw [hjobs] at hmem'
    obtain ⟨id, hget⟩ := JobIndex.mem_list_iff.mp hmem'
    rcases JobIndex.exists_of_next cmd hget with ⟨job, hjob, hsame⟩ | hdone
    · exact Or.inl ⟨job, JobIndex.mem_list_iff.mpr ⟨id, hjob⟩, hsame.trans hkind⟩
    · exact Or.inr ⟨job', hmem, hkind, hdone⟩
  | _ =>
    rw [hjobs] at hmem
    exact Or.inl ⟨job', hmem, hkind⟩

lemma DropPending.next {diskId : DiskId} (halloc : state.jobs.Allocated)
    (h : DropPending state diskId) (hspares : Spares state entry (.DropDisk diskId)) :
    DropPending (state.next entry) diskId := by
  rcases h with h | h
  · exact Or.inl (h.next halloc hspares)
  · by_cases hjob : hasJob (state.next entry) (.DropDisk diskId)
    · rcases hasJob_of_next hjob with hold | hnew
      · exact absurd hold h
      · exact Or.inl hnew
    · exact Or.inr hjob

/-- A committed creation leaves an unfinished job. -/
lemma unfinished_create (h : (state.applyCommand (.Job (.Create kind))).isOk = true) :
    Unfinished (state.next (.Job (.Create kind))) kind := by
  rw [Unfinished, jobs_next]
  simp only
  have hnext : state.jobs.next (.Create kind) = ⟨state.jobs.jobs.insert state.jobs.nextId
      ⟨state.jobs.nextId, kind, .Created, none, 0, 0⟩, state.jobs.nextId + 1⟩ := by
    rw [JobIndex.next]
    simp only [PdState.applyCommand, JobIndex.apply, JobIndex.applyCreate, advanceCounter] at h ⊢
    split_ifs at h ⊢ with hroom
    · rfl
    · cases h
  rw [hnext]
  have hget : JobIndex.get ⟨state.jobs.jobs.insert state.jobs.nextId
      ⟨state.jobs.nextId, kind, .Created, none, 0, 0⟩, state.jobs.nextId + 1⟩ state.jobs.nextId
        = some ⟨state.jobs.nextId, kind, .Created, none, 0, 0⟩ :=
    (OrdMap.get_insert _ _ _ _).trans (if_pos rfl)
  exact ⟨_, JobIndex.mem_list_iff.mpr ⟨_, hget⟩, rfl, fun hdone => JobState.noConfusion hdone⟩

lemma allocated_next (h : state.jobs.Allocated) (entry : PdEntry) :
    (state.next entry).jobs.Allocated := by
  rw [jobs_next]
  cases entry with
  | Job cmd => exact h.next cmd
  | _ => exact h

end Jobs

/-! ## Shards on disks -/

/-- Some slot of a committed chunk lies on the disk. -/
def Holds (state : PdState) (diskId : DiskId) : Prop := state.chunks.shardSlotsOnDisk diskId ≠ []

instance (state : PdState) (diskId : DiskId) : Decidable (Holds state diskId) :=
  inferInstanceAs (Decidable (_ ≠ _))

lemma holds_iff {diskId : DiskId} :
    Holds state diskId ↔ ∃ id chunk, state.chunks.get id = some chunk
      ∧ ∃ slot ∈ chunk.shards, slot.diskId = diskId := by
  simp only [Holds, ChunkIndex.shardSlotsOnDisk, ne_eq, List.flatMap_eq_nil_iff,
    List.filter_eq_nil_iff, decide_eq_true_eq, not_forall, not_not, Prod.exists,
    OrdMap.mem_toList_iff, ChunkIndex.get, exists_prop]

/-- The disks on which an entry puts slots. -/
def placements (state : PdState) : PdEntry → List DiskId
  | .CommitChunk cmd =>
    match state.chunks.staging.get cmd.chunkId with
    | none => []
    | some staging => staging.shards.map ShardSlot.diskId
  | .CommitShardMapping cmd => [cmd.newDisk]
  | .CommitShardRepair cmd => [cmd.newDisk]
  | _ => []

/-- A re-bind puts a slot on the new disk. -/
lemma mem_placements {entry : PdEntry} {chunkId : ChunkId} {index : UInt8} {newDisk : DiskId}
    (h : PdState.rebinds entry = some (chunkId, index, newDisk)) :
    newDisk ∈ placements state entry := by
  cases entry with
  | CommitShardMapping cmd | CommitShardRepair cmd =>
    cases h
    exact List.mem_singleton_self _
  | _ => cases h

lemma mem_replaceSlot {i : UInt8} {rebuilt slot : ShardSlot} {shards : List ShardSlot}
    (h : slot ∈ replaceSlot i rebuilt shards) : slot = rebuilt ∨ slot ∈ shards := by
  induction shards with
  | nil => cases h
  | cons head shards ih =>
    rw [replaceSlot] at h
    split_ifs at h with hhead
    · rcases List.mem_cons.mp h with hnew | hold
      · exact Or.inl hnew
      · exact Or.inr (List.mem_cons_of_mem _ hold)
    · rcases List.mem_cons.mp h with hnew | hold
      · exact Or.inr (hnew ▸ List.mem_cons_self)
      · exact (ih hold).imp_right (List.mem_cons_of_mem _)

section Shards

variable {state state' : PdState} {diskId : DiskId}

lemma Holds.congr (h : Holds state' diskId) (hchunks : state'.chunks.chunks = state.chunks.chunks) :
    Holds state diskId := by
  rw [Holds, ChunkIndex.shardSlotsOnDisk, hchunks] at h
  exact h

/-- An insertion adds the slots of the chunk that is inserted. -/
lemma Holds.of_insert {id : ChunkId} {chunk : Chunk} (h : Holds state' diskId)
    (hchunks : state'.chunks.chunks = state.chunks.chunks.insert id chunk) :
    Holds state diskId ∨ ∃ slot ∈ chunk.shards, slot.diskId = diskId := by
  obtain ⟨id', chunk', hget, hslot⟩ := holds_iff.mp h
  rw [ChunkIndex.get, hchunks, OrdMap.get_insert] at hget
  split_ifs at hget with hid
  · rw [← Option.some.inj hget] at hslot
    exact Or.inr hslot
  · exact Or.inl (holds_iff.mpr ⟨id', chunk', hget, hslot⟩)

/-- A disk that holds slots after an entry held some before, or the entry put one there. -/
theorem holds_next (entry : PdEntry) (h : Holds (state.next entry) diskId) :
    Holds state diskId ∨ diskId ∈ placements state entry := by
  cases state.change_next entry with
  | same _ hchunks | registered _ hchunks | marked _ hchunks =>
    exact Or.inl (h.congr (by rw [hchunks]))
  | planned _ hcreate => exact Or.inl (h.congr (ChunkIndex.applyCreateStaging_ok hcreate).2.1)
  | @committed cmd _ hchunks =>
    rw [placements]
    cases hstaging : state.chunks.staging.get cmd.chunkId with
    | none =>
      refine Or.inl (h.congr ?_)
      simp [hchunks, ChunkIndex.applyCommit, hstaging]
    | some staging =>
      simp only [ChunkIndex.applyCommit, hstaging] at hchunks
      rcases h.of_insert (congrArg ChunkIndex.chunks hchunks) with hold | ⟨slot, hmem, hslot⟩
      · exact Or.inl hold
      · exact Or.inr (List.mem_map.mpr ⟨slot, hmem, hslot⟩)
  | rebumped _ hrebump => exact Or.inl (h.congr (ChunkIndex.applyRebump_ok hrebump).1)
  | @sealed cmd _ hchunks =>
    left
    cases hchunk : state.chunks.chunks.get cmd.chunkId with
    | none => exact h.congr (by simp [hchunks, ChunkIndex.applySealChunk, hchunk])
    | some chunk =>
      cases hstatus : chunk.status with
      | Writable | Full =>
        simp only [ChunkIndex.applySealChunk, hchunk, hstatus] at hchunks
        rcases h.of_insert (congrArg ChunkIndex.chunks hchunks) with hold | hslot
        · exact hold
        · exact holds_iff.mpr ⟨cmd.chunkId, chunk, hchunk, hslot⟩
      | Sealed | Migrating | Broken =>
        exact h.congr (by simp [hchunks, ChunkIndex.applySealChunk, hchunk, hstatus])
  | rebound _ hentry _ hrebind =>
    obtain ⟨chunk, slot, rebuilt, hchunk, -, -, -, -, hdisk, hchunks, -⟩ :=
      ChunkIndex.applyRebind_ok hrebind
    rcases h.of_insert hchunks with hold | ⟨slot', hmem, hslot⟩
    · exact Or.inl hold
    · rcases mem_replaceSlot hmem with rfl | hmem
      · exact Or.inr (hslot ▸ hdisk ▸ mem_placements hentry)
      · exact Or.inl (holds_iff.mpr ⟨_, chunk, hchunk, slot', hmem, hslot⟩)

/-- A disk keeps its status over an entry, is new and `Normal`, or got the status that the entry asks for. -/
theorem status_next (entry : PdEntry) {disk' : Disk}
    (h : (state.next entry).disks.get diskId = some disk') :
    (∃ disk, state.disks.get diskId = some disk ∧ disk.status = disk'.status)
      ∨ disk'.status = .Normal
      ∨ ∃ disk, state.disks.get diskId = some disk
        ∧ entry = .UpdateDiskStatus ⟨diskId, disk'.status⟩
        ∧ disk.status.canTransitionTo disk'.status = true := by
  cases state.change_next entry with
  | registered hreg =>
    rcases DiskIndex.applyRegister_ok hreg with hold | ⟨-, hins⟩
    · rw [hold] at h
      exact Or.inl ⟨disk', h, rfl⟩
    · simp only [DiskIndex.get, hins, OrdMap.get_insert] at h
      split_ifs at h with hid
      · rw [← Option.some.inj h]
        exact Or.inr (Or.inl rfl)
      · exact Or.inl ⟨disk', h, rfl⟩
  | @marked cmd hdisks =>
    rw [hdisks] at h
    rcases state.disks.get_applyUpdateStatus cmd diskId with
      hsame | ⟨hid, disk, hget, -, hcan, hset⟩
    · exact Or.inl ⟨disk', hsame.symm.trans h, rfl⟩
    · have hdisk' := Option.some.inj (hset.symm.trans h)
      have hstatus : disk'.status = cmd.status := by rw [← hdisk']
      refine Or.inr (Or.inr ⟨disk, hget, ?_, hstatus ▸ hcan⟩)
      rw [hstatus, hid]
  | same hdisks | planned hdisks | committed hdisks | rebumped hdisks | sealed hdisks
  | rebound hdisks =>
    rw [hdisks] at h
    exact Or.inl ⟨disk', h, rfl⟩

end Shards

/-! ## What is owed to a disk -/

/-- What a disk with shards on it needs: a running repair when it failed, an evacuation that is running or still
to be started when it drains.  The repair of the `opened` disk is about to be created. -/
def Pending (opened : Option DiskId) (state : PdState) (diskId : DiskId) : DiskStatus → Prop
  | .Broken | .Repairing => opened = some diskId ∨ Unfinished state (.RepairDisk diskId)
  | .Draining => DropPending state diskId
  | .Normal | .Repaired | .Dropped => True

instance (opened : Option DiskId) (state : PdState) (diskId : DiskId) :
    (status : DiskStatus) → Decidable (Pending opened state diskId status)
  | .Broken | .Repairing => inferInstanceAs (Decidable (_ ∨ _))
  | .Draining => inferInstanceAs (Decidable (DropPending _ _))
  | .Normal | .Repaired | .Dropped => inferInstanceAs (Decidable True)

-- ids are a finite type, and the instance that goes through all of them would be found first
local instance (priority := 2000) decidableForallMemOption {α : Type} {p : α → Prop}
    [DecidablePred p] (o : Option α) : Decidable (∀ a ∈ o, p a) := Option.decidableForallMem o

local instance (priority := 2000) decidableForallMemList {α : Type} {p : α → Prop}
    [DecidablePred p] (l : List α) : Decidable (∀ a ∈ l, p a) := List.decidableBAll p l

/-- The job that an entry completes. -/
def completes : PdEntry → Option UInt32
  | .Job (.Complete id) => some id
  | _ => none

/-- The change of status that an entry asks for. -/
def marks : PdEntry → Option UpdateDiskStatus
  | .UpdateDiskStatus cmd => some cmd
  | _ => none

/-- A job ends only when its disk is empty; a disk with shards gets a status, and a disk with a status gets
shards, only when what it then needs is there.  (The step from `Broken` to `Repairing` needs nothing new.) -/
@[mk_iff] structure Careful (opened : Option DiskId) (state : PdState) (entry : PdEntry) : Prop where
  completes : ∀ id ∈ completes entry, ∀ job ∈ state.jobs.get id, ∀ diskId ∈ job.kind.suspectDisk,
    ¬Holds state diskId
  marks : ∀ cmd ∈ marks entry, cmd.status ≠ .Repairing → Holds state cmd.diskId →
    Pending opened state cmd.diskId cmd.status
  places : ∀ diskId ∈ placements state entry, ∀ disk ∈ state.disks.get diskId,
    Pending opened state diskId disk.status

instance (opened : Option DiskId) (state : PdState) (entry : PdEntry) :
    Decidable (Careful opened state entry) :=
  decidable_of_iff' _ (careful_iff opened state entry)

/-- A change of status that the disk is ready for is careful. -/
lemma careful_mark {opened : Option DiskId} {state : PdState} {cmd : UpdateDiskStatus}
    (h : cmd.status ≠ .Repairing → Holds state cmd.diskId →
      Pending opened state cmd.diskId cmd.status) :
    Careful opened state (.UpdateDiskStatus cmd) where
  completes := fun _ hid => by cases hid
  marks := fun cmd' hcmd => by
    cases hcmd
    exact h
  places := fun _ hplaced => by cases hplaced

lemma careful_create {opened : Option DiskId} (kind : JobKind) :
    Careful opened state (.Job (.Create kind)) where
  completes := fun _ hid => by cases hid
  marks := fun _ hcmd => by cases hcmd
  places := fun _ hplaced => by cases hplaced

/-- Every disk with shards on it has what it needs. -/
structure Cared (opened : Option DiskId) (state : PdState) : Prop where
  allocated : state.jobs.Allocated
  pending : ∀ diskId disk, state.disks.get diskId = some disk → Holds state diskId →
    Pending opened state diskId disk.status

section Cared

variable {state : PdState} {opened : Option DiskId} {diskId : DiskId}

lemma cared_new : Cared none .new where
  allocated := fun id job h => by simp [PdState.new, JobIndex.new, JobIndex.get] at h
  pending := fun diskId disk h => by simp [PdState.new, DiskIndex.new, DiskIndex.get] at h

lemma Pending.mono {status : DiskStatus} (h : Pending none state diskId status) :
    Pending opened state diskId status := by
  cases status with
  | Broken | Repairing => exact Or.inr (h.resolve_left (by simp))
  | _ => exact h

lemma Cared.mono (h : Cared none state) : Cared opened state :=
  ⟨h.allocated, fun diskId disk hget hholds => (h.pending diskId disk hget hholds).mono⟩

/-- The opened disk needs no exception when it is empty or its repair has started. -/
lemma Cared.close (h : Cared (some diskId) state)
    (hcovered : Holds state diskId → Unfinished state (.RepairDisk diskId)) : Cared none state := by
  refine ⟨h.allocated, fun diskId' disk hget hholds => ?_⟩
  have hpending := h.pending diskId' disk hget hholds
  cases hstatus : disk.status with
  | Broken | Repairing =>
    rw [hstatus] at hpending
    rcases hpending with hid | hunfinished
    · cases hid
      exact Or.inr (hcovered hholds)
    · exact Or.inr hunfinished
  | _ =>
    rw [hstatus] at hpending
    exact hpending

lemma Pending.next {entry : PdEntry} {status : DiskStatus} (halloc : state.jobs.Allocated)
    (h : Pending opened state diskId status)
    (hspares : ∀ kind, JobKind.suspectDisk kind = some diskId → Spares state entry kind) :
    Pending opened (state.next entry) diskId status := by
  cases status with
  | Broken | Repairing => exact h.imp_right fun h => h.next halloc (hspares _ rfl)
  | Draining => exact DropPending.next halloc h (hspares _ rfl)
  | Normal | Repaired | Dropped => trivial

/-- A careful entry ends no job of a disk that holds shards afterwards. -/
lemma Careful.spares {entry : PdEntry} (h : Careful opened state entry)
    (hholds : Holds (state.next entry) diskId) {kind : JobKind}
    (hkind : kind.suspectDisk = some diskId) : Spares state entry kind := by
  rintro id job rfl hget rfl
  rcases holds_next _ hholds with hold | hplaced
  · exact h.completes id rfl job hget diskId hkind hold
  · cases hplaced

/-- Careful entries keep every disk cared for. -/
theorem Cared.next {entry : PdEntry} (h : Cared opened state) (hcareful : Careful opened state entry) :
    Cared opened (state.next entry) := by
  refine ⟨allocated_next h.allocated entry, fun diskId disk' hget hholds => ?_⟩
  have hspares := fun kind => @Careful.spares _ _ diskId _ hcareful hholds kind
  rcases status_next entry hget with ⟨disk, hdisk, hstatus⟩ | hnormal | ⟨disk, hdisk, hentry, hcan⟩
  · rw [← hstatus]
    refine Pending.next h.allocated ?_ hspares
    rcases holds_next entry hholds with hold | hplaced
    · exact h.pending diskId disk hdisk hold
    · exact hcareful.places diskId hplaced disk hdisk
  · rw [hnormal]
    trivial
  · refine Pending.next h.allocated ?_ hspares
    subst hentry
    have hold : Holds state diskId := by
      rcases holds_next _ hholds with hold | hplaced
      · exact hold
      · cases hplaced
    by_cases hrepairing : disk'.status = .Repairing
    · -- only a `Broken` or `Repairing` disk goes there, and it was cared for
      have hpending := h.pending diskId disk hdisk hold
      rw [hrepairing] at hcan ⊢
      cases hstatus : disk.status with
      | Broken | Repairing =>
        rw [hstatus] at hpending
        exact hpending
      | Normal | Repaired | Draining | Dropped =>
        rw [hstatus] at hcan
        cases hcan
    · exact hcareful.marks _ rfl hrepairing hold

end Cared

/-! ## Runs of the trigger -/

/-- The disk whose break is marked and whose repair is to be created next. -/
def Phase.opened : Phase → Option DiskId
  | .creating diskId _ => some diskId
  | _ => none

/-- The disk whose break is about to be marked. -/
def Phase.marked : Phase → Option DiskId
  | .marking diskId _ => some diskId
  | _ => none

/-- The draining disks that the tick has still to look at, once it has listed them. -/
def Phase.due : Phase → Option (List DiskId)
  | .listed todo | .draining _ todo | .retiring _ _ todo => some todo
  | .evacuating diskId _ todo => some (diskId :: todo)
  | .finished => some []
  | _ => none

/-- The jobs that the tick has listed. -/
def Phase.jobs : Phase → List Job
  | .draining jobs _ | .evacuating _ jobs _ | .retiring _ jobs _ => jobs
  | _ => []

/-- The disk is empty, or its repair has started. -/
def Covered (state : PdState) (diskId : DiskId) : Prop :=
  Holds state diskId → Unfinished state (.RepairDisk diskId)

instance (state : PdState) (diskId : DiskId) : Decidable (Covered state diskId) :=
  inferInstanceAs (Decidable (_ → _))

/-- The entry asks for a disk to be drained. -/
def drains : PdEntry → Bool
  | .UpdateDiskStatus cmd => cmd.status = .Draining
  | _ => false

/-- The entries of others are careful, and no disk is marked for draining while the tick goes through the draining
ones.  Between the mark of a break and the creation of its job the leader stays, and both take effect, unless
the disk is covered anyway. -/
def Guarded (t : Trigger) : TriggerEvent → Prop
  | .entry entry => Careful t.phase.opened t.pd entry
      ∧ (drains entry → t.phase.due = none ∨ t.phase = .finished)
  | .tick _ | .crash => ∀ diskId ∈ t.phase.opened, Covered t.pd diskId
  | .read => True
  | .propose answer =>
    (∀ diskId ∈ t.phase.marked, answer = .failed true → Covered t.pd diskId)
      ∧ ∀ diskId ∈ t.phase.opened,
        answer = .failed false ∨ 2 ^ 32 ≤ t.pd.jobs.nextId.toNat + 1 → Covered t.pd diskId

instance (t : Trigger) : (event : TriggerEvent) → Decidable (Guarded t event)
  | .entry _ => inferInstanceAs (Decidable (_ ∧ (_ → _)))
  | .tick _ | .crash => inferInstanceAs (Decidable (∀ diskId ∈ t.phase.opened, _))
  | .read => inferInstanceAs (Decidable True)
  | .propose _ => inferInstanceAs (Decidable (_ ∧ _))

/-- What holds in every state of a guarded run. -/
structure Trigger.Sound (t : Trigger) : Prop where
  wellFormed : t.pd.WellFormed
  cared : Cared t.phase.opened t.pd
  listed : t.clean = true → ∀ todo ∈ t.phase.due, ∀ diskId disk,
    t.pd.disks.get diskId = some disk → disk.status = .Draining →
      diskId ∈ todo ∨ hasJob t.pd (.DropDisk diskId)
  jobs : ∀ job ∈ t.phase.jobs, hasJob t.pd job.kind

namespace Trigger

variable {t : Trigger}

lemma sound_new : Sound new where
  wellFormed := PdState.wellFormed_new
  cared := cared_new
  listed := fun _ todo h => by cases h
  jobs := fun job h => by cases h

variable {diskId : DiskId} {phase : Phase} {pd state : PdState} {clean : Bool} {todo : List DiskId}
  {answer : Answer}

/-- A phase before the draining disks are listed has nothing to account for. -/
lemma sound_of_early (hwf : pd.WellFormed) (hcared : Cared phase.opened pd)
    (hdue : phase.due = none) (hjobs : phase.jobs = []) :
    Sound ⟨pd, phase, clean⟩ := by
  refine ⟨hwf, hcared, fun _ todo htodo => ?_, fun job hjob => ?_⟩
  · simp only [hdue] at htodo
    cases htodo
  · simp only [hjobs] at hjob
    cases hjob

/-- An entry that marks no disk for draining leaves the draining disks accounted for. -/
lemma Sound.listed_next {entry : PdEntry} (h : t.Sound) (hdrains : drains entry = false)
    (hclean : t.clean = true) (htodo : todo ∈ t.phase.due) {disk : Disk}
    (hdisk : (t.pd.next entry).disks.get diskId = some disk) (hstatus : disk.status = .Draining) :
    diskId ∈ todo ∨ hasJob (t.pd.next entry) (.DropDisk diskId) := by
  rcases status_next entry hdisk with ⟨old, hold, hsame⟩ | hnormal | ⟨old, hold, hentry, -⟩
  · exact (h.listed hclean todo htodo diskId old hold (hsame.trans hstatus)).imp_right
      (hasJob_next h.cared.allocated entry)
  · rw [hstatus] at hnormal
    cases hnormal
  · rw [hentry, hstatus] at hdrains
    cases hdrains

lemma Sound.entry {entry : PdEntry} (h : t.Sound) (hguard : Guarded t (.entry entry)) :
    (t.step (.entry entry)).Sound := by
  obtain ⟨hcareful, hdrains⟩ := hguard
  by_cases hfinished : t.phase = .finished
  · simp only [step, if_pos hfinished]
    have hcared := h.cared.next hcareful
    rw [hfinished] at hcared
    exact sound_of_early (h.wellFormed.next entry) hcared rfl rfl
  · simp only [step, if_neg hfinished]
    refine ⟨h.wellFormed.next entry, h.cared.next hcareful, ?_,
      fun job hjob => hasJob_next h.cared.allocated entry (h.jobs job hjob)⟩
    intro hclean todo htodo diskId disk hdisk hstatus
    have hquiet : drains entry = false := by
      by_contra hmarks
      rcases hdrains (by simpa using hmarks) with hnone | hphase
      · rw [Option.mem_def, hnone] at htodo
        cases htodo
      · exact hfinished hphase
    exact h.listed_next hquiet hclean htodo hdisk hstatus

/-- The leader may go when the opened disk is covered. -/
lemma Sound.abandon (h : t.Sound) (hcovered : ∀ diskId ∈ t.phase.opened, Covered t.pd diskId) :
    Cared none t.pd := by
  have hcared := h.cared
  cases hopened : t.phase.opened with
  | none =>
    rw [hopened] at hcared
    exact hcared
  | some diskId =>
    rw [hopened] at hcared
    exact hcared.close (hcovered diskId hopened)

lemma mem_drainingDisks (hwf : state.WellFormed) {disk : Disk}
    (hdisk : state.disks.get diskId = some disk) (hstatus : disk.status = .Draining) :
    diskId ∈ drainingDisks state.disks := by
  have hmem : disk ∈ state.disks.list :=
    List.mem_map.mpr ⟨(diskId, disk), (OrdMap.mem_toList_iff _ _ _).mpr hdisk, rfl⟩
  refine List.mem_map.mpr ⟨disk, List.mem_filter.mpr ⟨hmem, by simpa using hstatus⟩, ?_⟩
  exact (hwf.disks diskId disk hdisk).1

/-- A tick that finds a job for the disk in its list finds it in the state. -/
lemma Sound.hasJob_of_any (h : t.Sound) {jobs : List Job} (hjobs : t.phase.jobs = jobs)
    {p : Job → Bool} (hany : jobs.any p = true)
    (hp : ∀ job, p job = true → job.kind = .DropDisk diskId) : hasJob t.pd (.DropDisk diskId) := by
  obtain ⟨job, hmem, hjob⟩ := List.any_eq_true.mp hany
  rw [← hjobs] at hmem
  rw [← hp job hjob]
  exact h.jobs job hmem

/-- A read that goes on with the rest of the draining disks has found a job for the first. -/
lemma Sound.skip (h : t.Sound) {jobs : List Job}
    (hphase : t.phase = .draining jobs (diskId :: todo)) (hjob : hasJob t.pd (.DropDisk diskId))
    (hopened : phase.opened = none) (hdue : phase.due = some todo) (hjobs : phase.jobs = jobs) :
    Sound ⟨t.pd, phase, t.clean⟩ := by
  have hcared := h.cared
  have hlisted := h.listed
  have hold := h.jobs
  rw [hphase] at hcared hlisted hold
  refine ⟨h.wellFormed, hopened ▸ hcared, ?_, fun job hjob => hold job (hjobs ▸ hjob)⟩
  intro hclean todo' htodo' diskId' disk hdisk hstatus
  simp only [hdue, Option.mem_def, Option.some.injEq] at htodo'
  subst htodo'
  rcases hlisted hclean (diskId :: todo) rfl diskId' disk hdisk hstatus with hmem | hhas
  · rcases List.mem_cons.mp hmem with rfl | hmem
    · exact Or.inr hjob
    · exact Or.inl hmem
  · exact Or.inr hhas

lemma Sound.read (h : t.Sound) : (t.step .read).Sound := by
  obtain ⟨pd, phase, clean⟩ := t
  simp only [step]
  cases phase with
  | broken todo =>
    cases todo with
    | nil => exact sound_of_early h.wellFormed h.cared rfl rfl
    | cons diskId todo =>
      simp only [Phase.read]
      split_ifs with hnormal
      · exact sound_of_early h.wellFormed h.cared rfl rfl
      · exact sound_of_early h.wellFormed h.cared rfl rfl
  | completed todo =>
    cases todo with
    | nil =>
      exact ⟨h.wellFormed, h.cared, fun _ todo htodo diskId disk hdisk hstatus =>
        Or.inl (Option.some.inj htodo ▸ mem_drainingDisks h.wellFormed hdisk hstatus),
        fun job hjob => by cases hjob⟩
    | cons diskId todo =>
      simp only [Phase.read]
      split_ifs with hstatus hslots
      · exact sound_of_early h.wellFormed h.cared rfl rfl
      · exact sound_of_early h.wellFormed h.cared rfl rfl
      · exact sound_of_early h.wellFormed h.cared rfl rfl
  | listed todo => exact ⟨h.wellFormed, h.cared, h.listed, fun job hjob => ⟨job, hjob, rfl⟩⟩
  | draining jobs todo =>
    cases todo with
    | nil => exact ⟨h.wellFormed, h.cared, h.listed, fun job hjob => by cases hjob⟩
    | cons diskId todo =>
      simp only [Phase.read]
      split_ifs with hnone hretire
      · exact ⟨h.wellFormed, h.cared, h.listed, h.jobs⟩
      · rw [Bool.and_eq_true] at hretire
        refine h.skip rfl (h.hasJob_of_any rfl hretire.1 fun job hjob => ?_) rfl rfl rfl
        exact (of_decide_eq_true hjob).1
      · refine h.skip rfl ?_ rfl rfl rfl
        simp only [Bool.and_eq_true, Bool.not_eq_true', not_and_or, Bool.not_eq_false] at hnone
        rcases hnone with hany | hany
        · exact h.hasJob_of_any rfl hany fun job hjob => (of_decide_eq_true hjob).1
        · exact h.hasJob_of_any rfl hany fun job hjob => (of_decide_eq_true hjob).1
  | idle | marking | creating | repairing | repaired | evacuating | retiring | finished => exact h

lemma isOk_create {kind : JobKind} (h : ¬2 ^ 32 ≤ state.jobs.nextId.toNat + 1) :
    (state.applyCommand (.Job (.Create kind))).isOk = true := by
  simp only [PdState.applyCommand, JobIndex.apply, JobIndex.applyCreate, advanceCounter,
    if_pos (not_le.mp h)]
  rfl

/-- Creating the job of the opened disk closes it. -/
lemma cared_create (h : Cared (some diskId) state)
    (hcovered : 2 ^ 32 ≤ state.jobs.nextId.toNat + 1 → Covered state diskId) :
    Cared none (state.next (.Job (.Create (.RepairDisk diskId)))) := by
  refine Cared.close (h.next (careful_create _)) fun hholds => ?_
  by_cases hroom : 2 ^ 32 ≤ state.jobs.nextId.toNat + 1
  · have hold : Holds state diskId := (holds_next _ hholds).resolve_right (by simp [placements])
    exact (hcovered hroom hold).next h.allocated fun _ _ hentry => by cases hentry
  · exact unfinished_create (isOk_create hroom)

/-- A proposal of the first two sweeps that keeps all disks cared for, whether or not it takes effect. -/
lemma sound_propose_early {phase' : Phase} {entry : PdEntry}
    (hentry : phase.proposal = some entry) (hanswered : ∀ ok, phase.answered ok = phase')
    (hopened : phase'.opened = none) (hdue : phase'.due = none) (hjobs : phase'.jobs = [])
    (hwf : pd.WellFormed) (hbefore : Cared none pd) (hafter : Cared none (pd.next entry)) :
    Sound (step ⟨pd, phase, clean⟩ (.propose answer)) := by
  simp only [step, hentry, hanswered]
  cases answer with
  | ok => exact sound_of_early (hwf.next entry) (hopened ▸ hafter) hdue hjobs
  | failed took =>
    cases took with
    | false => exact sound_of_early hwf (hopened ▸ hbefore) hdue hjobs
    | true => exact sound_of_early (hwf.next entry) (hopened ▸ hafter) hdue hjobs

/-- A proposal of the last sweep; when it is answered with success, it leaves the rest of the draining disks to
look at. -/
lemma sound_propose_late {pd : PdState} {phase : Phase} {clean : Bool} {entry : PdEntry}
    {answer : Answer} {jobs : List Job} {todo : List DiskId} (hentry : phase.proposal = some entry)
    (hanswered : ∀ ok, phase.answered ok = .draining jobs todo) (hwf : pd.WellFormed)
    (hbefore : Cared none pd) (hafter : Cared none (pd.next entry))
    (hjobs : ∀ job ∈ jobs, hasJob pd job.kind)
    (hlisted : clean = true → (pd.applyCommand entry).isOk = true → ∀ diskId disk,
      (pd.next entry).disks.get diskId = some disk → disk.status = .Draining →
        diskId ∈ todo ∨ hasJob (pd.next entry) (.DropDisk diskId)) :
    Sound (step ⟨pd, phase, clean⟩ (.propose answer)) := by
  have hjobs' : ∀ job ∈ jobs, hasJob (pd.next entry) job.kind :=
    fun job hjob => hasJob_next hbefore.allocated entry (hjobs job hjob)
  simp only [step, hentry, hanswered]
  cases answer with
  | ok =>
    refine ⟨hwf.next entry, hafter, fun hclean todo' htodo' => ?_, hjobs'⟩
    obtain ⟨hclean, hok⟩ := Bool.and_eq_true_iff.mp hclean
    rw [← Option.some.inj htodo']
    exact hlisted hclean hok
  | failed took =>
    cases took with
    | false => exact ⟨hwf, hbefore, fun hclean => (nomatch hclean), hjobs⟩
    | true => exact ⟨hwf.next entry, hafter, fun hclean => (nomatch hclean), hjobs'⟩

lemma Sound.propose (h : t.Sound) (hguard : Guarded t (.propose answer)) :
    (t.step (.propose answer)).Sound := by
  obtain ⟨pd, phase, clean⟩ := t
  have hwf : pd.WellFormed := h.wellFormed
  have hcared := h.cared
  cases phase with
  | marking diskId todo =>
    have hwf' := hwf.next (.UpdateDiskStatus ⟨diskId, .Broken⟩)
    cases answer with
    | ok => exact sound_of_early hwf' (hcared.mono.next (careful_mark fun _ _ => Or.inl rfl)) rfl rfl
    | failed took =>
      cases took with
      | false => exact sound_of_early hwf hcared rfl rfl
      | true =>
        have hmarked : Cared none (pd.next (.UpdateDiskStatus ⟨diskId, .Broken⟩)) :=
          hcared.next (careful_mark fun _ hholds => Or.inr (hguard.1 diskId rfl rfl hholds))
        exact sound_of_early hwf' hmarked rfl rfl
  | creating diskId todo =>
    have hwf' := hwf.next (.Job (.Create (.RepairDisk diskId)))
    have hcreated := cared_create hcared fun hroom => hguard.2 diskId rfl (Or.inr hroom)
    cases answer with
    | ok => exact sound_of_early hwf' hcreated rfl rfl
    | failed took =>
      cases took with
      | false => exact sound_of_early hwf (hcared.close (hguard.2 diskId rfl (Or.inl rfl))) rfl rfl
      | true => exact sound_of_early hwf' hcreated rfl rfl
  | repairing diskId todo =>
    exact sound_propose_early rfl (fun _ => rfl) rfl rfl rfl hwf hcared
      (hcared.next (careful_mark fun hne => absurd rfl hne))
  | repaired diskId todo =>
    exact sound_propose_early rfl (fun _ => rfl) rfl rfl rfl hwf hcared
      (hcared.next (careful_mark fun _ _ => trivial))
  | evacuating diskId jobs todo =>
    refine sound_propose_late rfl (fun _ => rfl) hwf hcared
      (hcared.next (careful_create _)) h.jobs ?_
    intro hclean hok diskId' disk hdisk hstatus
    rcases h.listed_next rfl hclean rfl hdisk hstatus with hmem | hjob
    · rcases List.mem_cons.mp hmem with rfl | hmem
      · obtain ⟨job, hjob, hkind, -⟩ := unfinished_create hok
        exact Or.inr ⟨job, hjob, hkind⟩
      · exact Or.inl hmem
    · exact Or.inr hjob
  | retiring diskId jobs todo =>
    refine sound_propose_late rfl (fun _ => rfl) hwf hcared (hcared.next (careful_mark fun _ _ => trivial))
      h.jobs ?_
    intro hclean _ diskId' disk hdisk hstatus
    exact h.listed_next rfl hclean rfl hdisk hstatus
  | idle | broken | completed | listed | draining | finished => exact h

theorem Sound.step (h : t.Sound) {event : TriggerEvent} (hguard : Guarded t event) :
    (t.step event).Sound := by
  cases event with
  | entry entry => exact h.entry hguard
  | tick tracker => exact sound_of_early h.wellFormed (h.abandon hguard) rfl rfl
  | crash => exact sound_of_early h.wellFormed (h.abandon hguard) rfl rfl
  | read => exact h.read
  | propose answer => exact h.propose hguard

end Trigger

/-- Every failed or draining disk that holds shards has an unfinished job of its kind. -/
def NoneForgotten (state : PdState) : Prop :=
  ∀ diskId disk, state.disks.get diskId = some disk → Holds state diskId →
    match disk.status with
    | .Broken | .Repairing => Unfinished state (.RepairDisk diskId)
    | .Draining => Unfinished state (.DropDisk diskId)
    | .Normal | .Repaired | .Dropped => True

/-- In a guarded run no disk is forgotten by a tick whose proposals all succeed. -/
theorem failed_disks_cared (events : List TriggerEvent)
    (h : Along Trigger.step Guarded Trigger.new events)
    (hfinished : (run Trigger.step Trigger.new events).phase = .finished)
    (hclean : (run Trigger.step Trigger.new events).clean = true) :
    NoneForgotten (run Trigger.step Trigger.new events).pd := by
  have hsound : (run Trigger.step Trigger.new events).Sound :=
    Along.invariant (P := Trigger.Sound) (fun _ _ hsound hguard => hsound.step hguard)
      Trigger.sound_new h
  intro diskId disk hdisk hholds
  have hpending := hsound.cared.pending diskId disk hdisk hholds
  rw [hfinished] at hpending
  cases hstatus : disk.status with
  | Broken | Repairing =>
    rw [hstatus] at hpending
    exact hpending.resolve_left (by simp [Phase.opened])
  | Draining =>
    rw [hstatus] at hpending
    have hlisted := hsound.listed hclean
    rw [hfinished] at hlisted
    rcases hlisted [] rfl diskId disk hdisk hstatus with hmem | hjob
    · cases hmem
    · exact hpending.resolve_right fun hnone => hnone hjob
  | Normal | Repaired | Dropped => trivial

/-- One node with two disks, and on each of them a chunk of one shard. -/
def twoDisks : List TriggerEvent :=
  let plan (diskId : DiskId) : CreateChunkStaging := ⟨⟨1, 1, 0, 1, 1⟩, [⟨0, diskId⟩], 0, 1⟩
  [.RegisterNode ⟨"n", "z", "r", .DATA⟩, .RegisterDisk ⟨1, "z", "r", "/a", 1⟩,
    .RegisterDisk ⟨1, "z", "r", "/b", 1⟩, .CreateChunkStaging (plan 1), .CreateChunkStaging (plan 2),
    .CommitChunk ⟨1⟩, .CommitChunk ⟨2⟩].map .entry

/-- A heartbeat that flags the first disk. -/
def flagsFirst : HeartbeatTracker := HeartbeatTracker.new.record ⟨1, [(1, ⟨0, 0, 0, true⟩)]⟩ 0

/-- The first disk breaks while the second is to be drained. -/
def repairedAndDrained : List TriggerEvent :=
  twoDisks ++ [.entry (.UpdateDiskStatus ⟨2, .Draining⟩), .tick flagsFirst, .read, .propose .ok,
    .propose .ok, .propose .ok, .read, .read, .read, .read, .propose .ok, .read]

/-- Both disks get their jobs. -/
theorem failed_disks_cared_demo :
    Along Trigger.step Guarded Trigger.new repairedAndDrained
      ∧ NoneForgotten (run Trigger.step Trigger.new repairedAndDrained).pd :=
  have h : Along Trigger.step Guarded Trigger.new repairedAndDrained := by decide +kernel
  ⟨h, failed_disks_cared repairedAndDrained h (by decide +kernel) (by decide +kernel)⟩

/-- The creation of the job fails in the first tick; the second has nothing to propose. -/
def jobLost : List TriggerEvent :=
  twoDisks ++ [.tick flagsFirst, .read, .propose .ok, .propose (.failed false), .propose .ok, .read,
    .read, .read, .read, .tick flagsFirst, .read, .read, .read, .read, .read]

/-- The first disk is left in repair with its shard and without a job. -/
theorem lost_job_is_never_started :
    (run Trigger.step Trigger.new jobLost).phase = .finished
      ∧ (run Trigger.step Trigger.new jobLost).clean = true
      ∧ ((run Trigger.step Trigger.new jobLost).pd.disks.get 1).map Disk.status = some .Repairing
      ∧ Holds (run Trigger.step Trigger.new jobLost).pd 1
      ∧ ¬Unfinished (run Trigger.step Trigger.new jobLost).pd (.RepairDisk 1) := by
  decide +kernel

end Epoch.Pd
