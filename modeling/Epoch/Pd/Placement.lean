import Epoch.Pd.Reachable

/-!
# Placement drivers (`epoch-pd/src/chunk/driver.rs`)

A driver takes a plan from the committed state of its replica, has every data node create its extent, and then
proposes to commit the plan, or to re-bump it when some creation was not answered.  It checks that it leads at
the start of a sweep only, and its replica may lag behind the log; so several drivers can work on one plan, and
a proposal can be applied long after the plan was read.

`CommitChunk` carries the chunk id alone.  When the plan was re-bumped in between, the commit promotes slots
whose extents nobody created (`overtaken_commit_lacks_extents`).  `commits_backed` says that a commit that finds
the plan its driver read has all its extents.
-/

namespace Epoch.Pd

/-- `pending_staging`. -/
def ChunkIndex.pendingStaging (index : ChunkIndex) : List StagingChunk :=
  index.staging.toList.map Prod.snd

/-! ## Drivers -/

abbrev DriverId := ℕ

/-- What a driver does after a plan: go on with the plans of the sweep, or with the attempts it has left. -/
inductive Origin
  | resume (rest : List StagingChunk)
  | attempt (left : ℕ)
deriving DecidableEq

inductive Driver
  | idle
  /-- The loop of `resume_staging`. -/
  | resuming (pending : List StagingChunk)
  /-- The loop of `create_chunk`. -/
  | retrying (chunkId : ChunkId) (left : ℕ)
  /-- The loop of `create_extents_for`; at its end the proposal is due. -/
  | creating (staging : StagingChunk) (todo : List ShardSlot) (created : ℕ) (origin : Origin)
deriving DecidableEq

namespace Driver

/-- All extents were answered: commit; otherwise re-bump. -/
def proposal : Driver → Option (StagingChunk × PdEntry)
  | .creating staging [] created _ =>
    if created = staging.shards.length then some (staging, .CommitChunk ⟨staging.chunkId⟩)
    else some (staging, .RebumpStaging ⟨staging.chunkId⟩)
  | _ => none

/-- How a driver goes on after its proposal was applied. -/
def proceed : Driver → Driver
  | .creating _ _ _ (.resume rest) => .resuming rest
  | .creating staging _ created (.attempt left) =>
    if created = staging.shards.length then .idle else .retrying staging.chunkId left
  | driver => driver

end Driver

/-- A data node answered a creation with success. -/
structure CreatedExtent where
  nodeId : NodeId
  shardId : ShardId
  createTs : Int64
  extentId : ExtentId
deriving DecidableEq

/-- The committed state with its earlier ones, latest first, the drivers of all replicas, proposals that nobody
waits for any more, and the creations answered so far. -/
structure Placing where
  pd : PdState
  past : List PdState
  drivers : DriverId → Driver
  late : List (StagingChunk × PdEntry)
  answered : List CreatedExtent

inductive ProposeOutcome
  | applied
  /-- The driver gets an error; the entry may be applied later. -/
  | late
  | lost
deriving DecidableEq

inductive PlacingEvent
  /-- An entry of another part of PD; none of them commits chunks. -/
  | entry (entry : PdEntry)
  /-- The driver lists the plans of its replica, which lags by some entries. -/
  | sweep (driver : DriverId) (lag : ℕ)
  | stage (driver : DriverId) (cmd : CreateChunkStaging) (attempts : ℕ)
  /-- The driver's next read or creation, with the data node's answer. -/
  | go (driver : DriverId) (lag : ℕ) (answer : Option ExtentId)
  | propose (driver : DriverId) (outcome : ProposeOutcome)
  /-- A late proposal is applied. -/
  | arrive (i : ℕ)
  | crash (driver : DriverId)

namespace Placing

def new : Placing := ⟨.new, [], fun _ => .idle, [], []⟩

variable (w : Placing)

/-- The state of a replica that lags by so many entries. -/
def view (lag : ℕ) : PdState := (w.pd :: w.past).getD lag w.pd

def commit (entry : PdEntry) : Placing :=
  { w with pd := w.pd.next entry, past := w.pd :: w.past }

def setDriver (driver : DriverId) (state : Driver) : Placing :=
  { w with drivers := Function.update w.drivers driver state }

def isCommit : PdEntry → Bool
  | .CommitChunk _ => true
  | _ => false

/-- One iteration of `create_extents_for`. -/
def createExtent (driver : DriverId) (view : PdState) (answer : Option ExtentId)
    (staging : StagingChunk) (slot : ShardSlot) (todo : List ShardSlot) (created : ℕ)
    (origin : Origin) : Placing :=
  match view.disks.get slot.diskId with
  | none => w.setDriver driver (.creating staging todo created origin)
  | some disk =>
    match answer with
    | none => w.setDriver driver (.creating staging todo created origin)
    | some extentId =>
      { w.setDriver driver (.creating staging todo
          (if extentId = slot.extentId then created + 1 else created) origin) with
        answered := ⟨disk.nodeId, slot.shardId, slot.extentId.createTs, extentId⟩ :: w.answered }

def go (driver : DriverId) (view : PdState) (answer : Option ExtentId) : Placing :=
  match w.drivers driver with
  | .idle => w
  | .resuming [] => w.setDriver driver .idle
  | .resuming (staging :: rest) =>
    w.setDriver driver (.creating staging staging.shards 0 (.resume rest))
  | .retrying _ 0 => w.setDriver driver .idle
  | .retrying chunkId (left + 1) =>
    match view.chunks.staging.get chunkId with
    | none => w.setDriver driver .idle
    | some staging => w.setDriver driver (.creating staging staging.shards 0 (.attempt left))
  | .creating _ [] _ _ => w
  | .creating staging (slot :: todo) created origin =>
    w.createExtent driver view answer staging slot todo created origin

def step : PlacingEvent → Placing
  | .entry entry => if isCommit entry then w else w.commit entry
  | .sweep driver lag =>
    if w.drivers driver = .idle then
      w.setDriver driver (.resuming (w.view lag).chunks.pendingStaging)
    else w
  | .stage driver cmd attempts =>
    if w.drivers driver = .idle then
      match w.pd.applyCommand (.CreateChunkStaging cmd) with
      | .ok (.ChunkStaged chunkId, _) =>
        (w.commit (.CreateChunkStaging cmd)).setDriver driver (.retrying chunkId attempts)
      | _ => w
    else w
  | .go driver lag answer => w.go driver (w.view lag) answer
  | .propose driver outcome =>
    match (w.drivers driver).proposal with
    | none => w
    | some proposal =>
      match outcome with
      | .applied => (w.commit proposal.2).setDriver driver (w.drivers driver).proceed
      | .late => { w.setDriver driver .idle with late := w.late ++ [proposal] }
      | .lost => w.setDriver driver .idle
  | .arrive i =>
    match w.late[i]? with
    | none => w
    | some proposal => { w.commit proposal.2 with late := w.late.eraseIdx i }
  | .crash driver => w.setDriver driver .idle

/-- The proposal of a driver that an event applies, with the plan it was made for. -/
def applies : PlacingEvent → Option (StagingChunk × PdEntry)
  | .propose driver .applied => (w.drivers driver).proposal
  | .arrive i => w.late[i]?
  | _ => none

/-! ## Commits with all their extents -/

/-- The slot's data node answered the creation of exactly this shard and extent. -/
def Backed (slot : ShardSlot) : Prop :=
  ∃ disk, w.pd.disks.get slot.diskId = some disk
    ∧ ⟨disk.nodeId, slot.shardId, slot.extentId.createTs, slot.extentId⟩ ∈ w.answered

/-- A chunk that the event commits has all its extents. -/
def CommitsBacked (event : PlacingEvent) : Prop :=
  ∀ staging chunkId, w.applies event = some (staging, .CommitChunk ⟨chunkId⟩) →
    w.pd.applyCommand (.CommitChunk ⟨chunkId⟩) = .ok (.Applied, (w.step event).pd) →
      ∀ chunk, (w.step event).pd.chunks.get chunkId = some chunk →
        ∀ slot ∈ chunk.shards, (w.step event).Backed slot

/-- A commit that is applied finds the plan that its driver read, or none. -/
def Current (event : PlacingEvent) : Prop :=
  ∀ proposal ∈ w.applies event, isCommit proposal.2 →
    ∀ plan ∈ w.pd.chunks.staging.get proposal.1.chunkId, plan = proposal.1

instance (event : PlacingEvent) : Decidable (w.Current event) :=
  inferInstanceAs (Decidable (∀ proposal ∈ w.applies event, _))

variable {w}

/-- What holds in every state: the plans under way have the extents that are counted, and late commits have all of
theirs. -/
structure Sound (w : Placing) : Prop where
  wellFormed : w.pd.WellFormed
  past : ∀ lag id disk, (w.view lag).disks.get id = some disk →
    ∃ disk', w.pd.disks.get id = some disk' ∧ disk'.nodeId = disk.nodeId
  drivers : ∀ driver staging todo created origin,
    w.drivers driver = .creating staging todo created origin →
      ∃ done, staging.shards = done ++ todo ∧ created ≤ done.length
        ∧ (created = done.length → ∀ slot ∈ done, w.Backed slot)
  late : ∀ proposal ∈ w.late, isCommit proposal.2 →
    proposal.2 = .CommitChunk ⟨proposal.1.chunkId⟩ ∧ ∀ slot ∈ proposal.1.shards, w.Backed slot

lemma sound_new : Sound new where
  wellFormed := PdState.wellFormed_new
  past := fun lag id disk h => by
    refine ⟨disk, ?_, rfl⟩
    cases lag <;> exact h
  drivers := fun _ _ _ _ _ h => by cases h
  late := fun _ h => by cases h

/-! ### Steps that keep what is backed -/

/-- Nothing that was backed is lost: disks keep their nodes and answers are kept. -/
structure Grows (w w' : Placing) : Prop where
  disks : ∀ id disk, w.pd.disks.get id = some disk →
    ∃ disk', w'.pd.disks.get id = some disk' ∧ disk'.nodeId = disk.nodeId
  answered : w.answered ⊆ w'.answered

variable {proposal : StagingChunk × PdEntry} {slot : ShardSlot} {driver : DriverId}
  {event : PlacingEvent}

lemma Grows.backed {w' : Placing} (h : Grows w w') (hslot : w.Backed slot) :
    w'.Backed slot := by
  obtain ⟨disk, hdisk, hmem⟩ := hslot
  obtain ⟨disk', hdisk', hnode⟩ := h.disks slot.diskId disk hdisk
  refine ⟨disk', hdisk', ?_⟩
  rw [hnode]
  exact h.answered hmem

variable {state : Driver} {staging : StagingChunk} {todo : List ShardSlot} {created : ℕ}
  {origin : Origin}

/-- A driver moves to a state that needs nothing beyond what it had. -/
lemma Sound.setDriver (h : w.Sound) (driver : DriverId)
    (hstate : ∀ staging todo created origin, state = .creating staging todo created origin → ∃ done, staging.shards = done ++ todo ∧ created ≤ done.length ∧ (created = done.length → ∀ slot ∈ done, w.Backed slot)) :
    (w.setDriver driver state).Sound := by
  refine ⟨h.wellFormed, h.past, ?_, h.late⟩
  intro driver' staging todo created origin hdriver
  by_cases hid : driver' = driver
  · subst hid
    simp only [Placing.setDriver, Function.update_self] at hdriver
    exact hstate staging todo created origin hdriver
  · simp only [Placing.setDriver, Function.update_of_ne hid] at hdriver
    exact h.drivers driver' staging todo created origin hdriver

lemma grows_commit (h : w.Sound) (entry : PdEntry) : Grows w (w.commit entry) := by
  refine ⟨fun id disk hdisk => ?_, fun _ hmem => hmem⟩
  obtain ⟨disk', hdisk', hnode, -⟩ := PdState.disks_next h.wellFormed entry hdisk
  exact ⟨disk', hdisk', hnode⟩

lemma Sound.commit (h : w.Sound) (entry : PdEntry) : (w.commit entry).Sound := by
  have hgrows := grows_commit h entry
  refine ⟨h.wellFormed.next entry, ?_, ?_, ?_⟩
  · intro lag id disk hdisk
    cases lag with
    | zero => exact ⟨disk, hdisk, rfl⟩
    | succ lag =>
      by_cases hlag : lag < (w.pd :: w.past).length
      · have hview : (w.commit entry).view (lag + 1) = w.view lag := by
          simp only [view, Placing.commit, List.getD_cons_succ]
          rw [List.getD_eq_getElem _ _ hlag, List.getD_eq_getElem _ _ hlag]
        rw [hview] at hdisk
        obtain ⟨old, hold, hnode⟩ := h.past lag id disk hdisk
        obtain ⟨disk', hdisk', hnode'⟩ := hgrows.disks id old hold
        exact ⟨disk', hdisk', hnode'.trans hnode⟩
      · have hview : (w.commit entry).view (lag + 1) = (w.commit entry).pd := by
          simp only [view, Placing.commit, List.getD_cons_succ]
          rw [List.getD_eq_default _ _ (not_lt.mp hlag)]
        rw [hview] at hdisk
        exact ⟨disk, hdisk, rfl⟩
  · intro driver staging todo created origin hdriver
    obtain ⟨done, hshards, hle, hdone⟩ := h.drivers driver staging todo created origin hdriver
    exact ⟨done, hshards, hle, fun heq slot hslot => hgrows.backed (hdone heq slot hslot)⟩
  · intro proposal hmem hcommit
    obtain ⟨hentry, hslots⟩ := h.late proposal hmem hcommit
    exact ⟨hentry, fun slot hslot => hgrows.backed (hslots slot hslot)⟩

/-- More answers do no harm. -/
lemma Sound.answer (h : w.Sound) (extent : CreatedExtent) :
    Sound { w with answered := extent :: w.answered } := by
  have hgrows : Grows w { w with answered := extent :: w.answered } :=
    ⟨fun _ disk hdisk => ⟨disk, hdisk, rfl⟩, List.subset_cons_self _ _⟩
  refine ⟨h.wellFormed, h.past, ?_, ?_⟩
  · intro driver staging todo created origin hdriver
    obtain ⟨done, hshards, hle, hdone⟩ := h.drivers driver staging todo created origin hdriver
    exact ⟨done, hshards, hle, fun heq slot hslot => hgrows.backed (hdone heq slot hslot)⟩
  · intro proposal hmem hcommit
    obtain ⟨hentry, hslots⟩ := h.late proposal hmem hcommit
    exact ⟨hentry, fun slot hslot => hgrows.backed (hslots slot hslot)⟩

/-! ### Drivers -/

lemma Sound.notCreating (h : w.Sound) (driver : DriverId)
    (hstate : ∀ staging todo created origin, state ≠ .creating staging todo created origin) :
    (w.setDriver driver state).Sound :=
  h.setDriver driver fun staging todo created origin heq =>
    absurd heq (hstate staging todo created origin)

/-- A driver begins with a plan and nothing counted. -/
lemma Sound.begin (h : w.Sound) (driver : DriverId) (staging : StagingChunk) (origin : Origin) :
    (w.setDriver driver (.creating staging staging.shards 0 origin)).Sound := by
  refine h.setDriver driver fun staging' todo created origin' heq => ?_
  cases heq
  exact ⟨[], rfl, le_rfl, fun _ slot hslot => by cases hslot⟩

/-- An iteration that counts nothing leaves the count below the number of slots done. -/
lemma Sound.skip (h : w.Sound)
    (hdriver : w.drivers driver = .creating staging (slot :: todo) created origin) :
    (w.setDriver driver (.creating staging todo created origin)).Sound := by
  obtain ⟨done, hshards, hle, -⟩ := h.drivers driver _ _ _ _ hdriver
  refine h.setDriver driver fun staging' todo' created' origin' heq => ?_
  cases heq
  refine ⟨done ++ [slot], by rw [hshards, List.append_assoc]; rfl, ?_, fun heq => ?_⟩
  · rw [List.length_append]
    exact hle.trans (Nat.le_add_right _ _)
  · rw [List.length_append, List.length_singleton] at heq
    omega

lemma Sound.createExtent (h : w.Sound) {lag : ℕ} {answer : Option ExtentId}
    (hdriver : w.drivers driver = .creating staging (slot :: todo) created origin) :
    (w.createExtent driver (w.view lag) answer staging slot todo created origin).Sound := by
  rw [Placing.createExtent]
  cases hdisk : (w.view lag).disks.get slot.diskId with
  | none => exact h.skip hdriver
  | some disk =>
    cases answer with
    | none => exact h.skip hdriver
    | some extentId =>
      have hanswered := h.answer
        ⟨disk.nodeId, slot.shardId, slot.extentId.createTs, extentId⟩
      by_cases hid : extentId = slot.extentId
      · simp only [if_pos hid]
        obtain ⟨done, hshards, hle, hdone⟩ := hanswered.drivers driver _ _ _ _ hdriver
        refine hanswered.setDriver driver fun staging' todo' created' origin' heq => ?_
        cases heq
        refine ⟨done ++ [slot], by rw [hshards, List.append_assoc]; rfl, ?_, ?_⟩
        · rw [List.length_append]
          exact Nat.add_le_add_right hle 1
        · intro heq slot' hslot'
          rw [List.length_append, List.length_singleton, Nat.add_right_cancel_iff] at heq
          rcases List.mem_append.mp hslot' with hold | hnew
          · exact hdone heq slot' hold
          · -- the answer that was just recorded is this slot's
            rw [List.mem_singleton.mp hnew]
            obtain ⟨disk', hdisk', hnode⟩ := h.past lag slot.diskId disk hdisk
            refine ⟨disk', hdisk', ?_⟩
            rw [hnode, ← hid]
            exact List.mem_cons_self
      · simp only [if_neg hid]
        exact hanswered.skip hdriver

lemma Sound.go (h : w.Sound) (driver : DriverId) (lag : ℕ) (answer : Option ExtentId) :
    (w.go driver (w.view lag) answer).Sound := by
  rw [Placing.go]
  cases hdriver : w.drivers driver with
  | idle => exact h
  | resuming pending =>
    cases pending with
    | nil => exact h.notCreating driver fun _ _ _ _ heq => by cases heq
    | cons staging rest => exact h.begin driver staging _
  | retrying chunkId left =>
    cases left with
    | zero => exact h.notCreating driver fun _ _ _ _ heq => by cases heq
    | succ left =>
      cases hplan : (w.view lag).chunks.staging.get chunkId with
      | none =>
        simp only [hplan]
        exact h.notCreating driver fun _ _ _ _ heq => by cases heq
      | some staging =>
        simp only [hplan]
        exact h.begin driver staging _
  | creating staging todo created origin =>
    cases todo with
    | nil => exact h
    | cons slot todo => exact h.createExtent hdriver

/-- A driver that proposes a commit has all the extents of its plan. -/
lemma Sound.proposed (h : w.Sound) (hproposal : (w.drivers driver).proposal = some proposal)
    (hcommit : isCommit proposal.2) :
    proposal.2 = .CommitChunk ⟨proposal.1.chunkId⟩ ∧ ∀ slot ∈ proposal.1.shards, w.Backed slot := by
  cases hdriver : w.drivers driver with
  | creating staging todo created origin =>
    rw [hdriver] at hproposal
    cases todo with
    | cons slot todo => cases hproposal
    | nil =>
      rw [Driver.proposal] at hproposal
      split_ifs at hproposal with hall
      · cases hproposal
        obtain ⟨done, hshards, -, hdone⟩ := h.drivers driver _ _ _ _ hdriver
        rw [List.append_nil] at hshards
        rw [hshards] at hall ⊢
        exact ⟨rfl, hdone hall⟩
      · cases hproposal
        cases hcommit
  | _ =>
    rw [hdriver] at hproposal
    cases hproposal

lemma Driver.proceed_ne {driver : Driver} (h : driver.proposal = some proposal)
    (staging : StagingChunk) (todo : List ShardSlot) (created : ℕ) (origin : Origin) :
    driver.proceed ≠ .creating staging todo created origin := by
  cases driver with
  | creating staging' todo' created' origin' =>
    cases origin' with
    | resume rest => exact fun heq => by cases heq
    | attempt left =>
      rw [Driver.proceed]
      split_ifs
      · exact fun heq => by cases heq
      · exact fun heq => by cases heq
  | _ => cases h

/-- Every step keeps the invariant, whatever is applied when. -/
theorem Sound.step (h : w.Sound) (event : PlacingEvent) : (w.step event).Sound := by
  cases event with
  | entry entry =>
    simp only [Placing.step]
    split_ifs
    · exact h
    · exact h.commit entry
  | sweep driver lag =>
    simp only [Placing.step]
    split_ifs
    · exact h.notCreating driver fun _ _ _ _ heq => by cases heq
    · exact h
  | stage driver cmd attempts =>
    simp only [Placing.step]
    split_ifs
    · split
      · exact (h.commit _).notCreating driver fun _ _ _ _ heq => by cases heq
      · exact h
    · exact h
  | go driver lag answer => exact h.go driver lag answer
  | propose driver outcome =>
    simp only [Placing.step]
    cases hproposal : (w.drivers driver).proposal with
    | none => exact h
    | some proposal =>
      have hidle : (w.setDriver driver .idle).Sound :=
        h.notCreating driver fun _ _ _ _ heq => by cases heq
      cases outcome with
      | applied => exact (h.commit _).notCreating driver (Driver.proceed_ne hproposal)
      | late =>
        refine ⟨hidle.wellFormed, hidle.past, hidle.drivers, fun proposal' hmem hcommit => ?_⟩
        rcases List.mem_append.mp hmem with hold | hnew
        · exact hidle.late proposal' hold hcommit
        · rw [List.mem_singleton.mp hnew] at hcommit ⊢
          exact h.proposed hproposal hcommit
      | lost => exact hidle
  | arrive i =>
    simp only [Placing.step]
    cases hlate : w.late[i]? with
    | none => exact h
    | some proposal =>
      have hcommitted := h.commit proposal.2
      exact ⟨hcommitted.wellFormed, hcommitted.past, hcommitted.drivers, fun proposal' hmem =>
        hcommitted.late proposal' (List.mem_of_mem_eraseIdx hmem)⟩
  | crash driver => exact h.notCreating driver fun _ _ _ _ heq => by cases heq

/-- The plan behind a commit that an event applies has all its extents. -/
lemma Sound.applies (h : w.Sound) (happlies : w.applies event = some proposal)
    (hcommit : isCommit proposal.2) :
    proposal.2 = .CommitChunk ⟨proposal.1.chunkId⟩ ∧ ∀ slot ∈ proposal.1.shards, w.Backed slot := by
  cases event with
  | propose driver outcome =>
    cases outcome with
    | applied => exact h.proposed happlies hcommit
    | late => cases happlies
    | lost => cases happlies
  | arrive i => exact h.late proposal (List.mem_of_getElem? happlies) hcommit
  | _ => cases happlies

lemma pd_of_applies (happlies : w.applies event = some proposal) :
    (w.step event).pd = w.pd.next proposal.2 ∧ (w.step event).answered = w.answered := by
  cases event with
  | propose driver outcome =>
    cases outcome with
    | applied =>
      simp only [Placing.applies] at happlies
      simp only [Placing.step, happlies]
      exact ⟨rfl, rfl⟩
    | late => cases happlies
    | lost => cases happlies
  | arrive i =>
    simp only [Placing.applies] at happlies
    simp only [Placing.step, happlies]
    exact ⟨rfl, rfl⟩
  | _ => cases happlies

lemma Sound.commitsBacked (h : w.Sound) (hcurrent : w.Current event) :
    w.CommitsBacked event := by
  intro staging chunkId happlies hok chunk hchunk slot hslot
  obtain ⟨hentry, hslots⟩ := h.applies happlies rfl
  have hid : chunkId = staging.chunkId :=
    congrArg CommitChunk.chunkId (PdEntry.CommitChunk.inj hentry)
  obtain ⟨hpd, hanswered⟩ := pd_of_applies happlies
  have hgrows : Grows w (w.step event) := by
    refine ⟨fun id disk hdisk => ?_, by rw [hanswered]; exact fun _ hmem => hmem⟩
    rw [hpd]
    obtain ⟨disk', hdisk', hnode, -⟩ := PdState.disks_next h.wellFormed _ hdisk
    exact ⟨disk', hdisk', hnode⟩
  apply hgrows.backed
  cases hplan : w.pd.chunks.staging.get chunkId with
  | none =>
    simp [PdState.applyCommand, ChunkIndex.applyCommit, hplan, rejectToResult] at hok
  | some plan =>
    have hread : plan = staging := hcurrent _ happlies rfl plan (hid ▸ hplan)
    have hshards : chunk.shards = plan.shards := by
      obtain ⟨hown, -, -⟩ := h.wellFormed.staging chunkId plan hplan
      have hnext := (Prod.mk.inj (Except.ok.inj hok)).2
      rw [← hnext] at hchunk
      simp only [ChunkIndex.applyCommit, hplan, ChunkIndex.get, hown, OrdMap.get_insert,
        if_true, Option.some.injEq] at hchunk
      rw [← hchunk]
    rw [hshards, hread] at hslot
    exact hslots slot hslot

/-- Every chunk that is committed while its plan is the one its driver read has all its extents. -/
theorem commits_backed (events : List PlacingEvent) (h : Along Placing.step Current new events) :
    Along Placing.step CommitsBacked new events :=
  Along.of_invariant (P := Sound) (fun _ event hw _ => hw.step event)
    (fun _ _ hw hcurrent => hw.commitsBacked hcurrent) sound_new h

/-- One node with one disk, and a plan of one shard on it that the first driver staged and read. -/
def onePlan : List PlacingEvent :=
  [.entry (.RegisterNode ⟨"n", "z", "r", .DATA⟩), .entry (.RegisterDisk ⟨1, "z", "r", "/a", 1⟩),
    .stage 0 ⟨⟨1, 1, 0, 1, 1⟩, [⟨0, 1⟩], 7, 0⟩ 3, .go 0 0 none]

/-- The extent of the plan after it was re-bumped to the epoch. -/
def planned (epoch : UInt64) : ExtentId := ⟨0x100000000 + epoch, 7⟩

/-- The first creation is not answered, the plan is re-bumped and read again. -/
def retried : List PlacingEvent :=
  onePlan ++ [.go 0 0 none, .propose 0 .applied, .go 0 0 none, .go 0 0 (some (planned 3)),
    .propose 0 .applied]

theorem commits_backed_demo :
    Along Placing.step Current new retried ∧ Along Placing.step CommitsBacked new retried :=
  have h : Along Placing.step Current new retried := by decide +kernel
  ⟨h, commits_backed retried h⟩

/-- While the first driver waits for its data node, another leader's sweep re-bumps the plan; then the answer
comes and the first driver, which leads again, commits. -/
def overtaken : List PlacingEvent :=
  onePlan ++ [.sweep 1 0, .go 1 0 none, .go 1 0 none, .propose 1 .applied,
    .go 0 0 (some (planned 0))]

/-- The committed slot has the new extent, and only the old one was created. -/
theorem overtaken_commit_lacks_extents :
    (run Placing.step new overtaken).applies (.propose 0 .applied)
        = some (⟨1, ⟨1, 1, 0, 1, 1⟩, [⟨0x100000000, 0, 1, planned 0⟩]⟩, .CommitChunk ⟨1⟩)
      ∧ (((run Placing.step new (overtaken ++ [.propose 0 .applied])).pd.chunks.get 1).map
          Chunk.shards) = some [⟨0x100000000, 3, 1, planned 3⟩]
      ∧ (run Placing.step new (overtaken ++ [.propose 0 .applied])).answered
        = [⟨1, 0x100000000, 7, planned 0⟩] := by
  decide +kernel

end Placing

end Epoch.Pd
