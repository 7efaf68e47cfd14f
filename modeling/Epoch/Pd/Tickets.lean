import Epoch.Pd.Reachable

/-!
# Repair tickets and the slots they are for

A ticket is usable while it names the current epoch of its slot and the node of the slot's disk: the node
it was dispatched to can then commit the repair, and a report that finds the ticket loses nothing.

Of the two ways to re-bind a slot only `CommitShardRepair` clears the ticket.  A `CommitShardMapping` for a
slot with a pending ticket leaves one behind that names an old epoch; every commit for it is refused and every
later report for the slot finds it and is dropped (`mapping_strands_ticket`).  `tickets_usable` says that
this is the only way a ticket goes out of date.
-/

namespace Epoch.Pd

lemma toNat_slotKey (chunkId : ChunkId) (index : UInt8) :
    (shardPrefix chunkId index).toNat = chunkId.toNat * 2 ^ 32 + index.toNat * 2 ^ 24 := by
  have hnew : ShardId.tryNew chunkId index 0 = some (shardPrefix chunkId index) := by
    rw [ShardId.tryNew, if_neg (by decide), shardPrefix]
    simp
  obtain ⟨-, hnat⟩ := ShardId.toNat_tryNew hnew
  simpa using hnat

/-- A key of the ticket table belongs to one slot. -/
lemma shardPrefix_inj {c c' : ChunkId} {i i' : UInt8} (h : shardPrefix c i = shardPrefix c' i') :
    c = c' ∧ i = i' := by
  have hnat := congrArg UInt64.toNat h
  rw [toNat_slotKey, toNat_slotKey] at hnat
  have hi := i.toNat_lt
  have hi' := i'.toNat_lt
  constructor
  · rw [← UInt32.toNat_inj]
    omega
  · rw [← UInt8.toNat_inj]
    omega

namespace PdState

variable {state : PdState}

/-- The ticket names the epoch of its slot and the node of the slot's disk. -/
def CurrentTicket (state : PdState) (ticket : ShardRepairTicket) : Prop :=
  ∃ slot disk, state.slotAt ticket.chunkId ticket.index = some slot
    ∧ state.disks.get slot.diskId = some disk ∧ ticket.expectedEpoch = slot.epoch
    ∧ ticket.targetNode = disk.nodeId

/-- Every pending ticket is current and lies under its slot. -/
def TicketsCurrent (state : PdState) : Prop :=
  ∀ key ticket, OrdMap.get state.shardRepairs key = some ticket →
    key = ticket.shardPrefix ∧ state.CurrentTicket ticket

/-- No slot with a pending ticket is re-bound through a job. -/
def SparesTickets (state : PdState) : PdEntry → Prop
  | .CommitShardMapping cmd =>
    OrdMap.get state.shardRepairs (shardPrefix cmd.chunkId cmd.index) = none
  | _ => True

instance (state : PdState) (entry : PdEntry) : Decidable (state.SparesTickets entry) := by
  apply PdEntry.casesOn (motive := fun entry => Decidable (state.SparesTickets entry)) entry
  all_goals
    intros
    first | exact inferInstanceAs (Decidable (_ = none)) | exact inferInstanceAs (Decidable True)

lemma CurrentTicket.unique {ticket ticket' : ShardRepairTicket} (h : state.CurrentTicket ticket)
    (h' : state.CurrentTicket ticket') (hchunk : ticket.chunkId = ticket'.chunkId)
    (hindex : ticket.index = ticket'.index) : ticket = ticket' := by
  obtain ⟨slot, disk, hslot, hdisk, hepoch, hnode⟩ := h
  obtain ⟨slot', disk', hslot', hdisk', hepoch', hnode'⟩ := h'
  rw [hchunk, hindex, hslot', Option.some.injEq] at hslot
  subst hslot
  rw [hdisk', Option.some.injEq] at hdisk
  subst hdisk
  cases ticket
  cases ticket'
  simp only at hchunk hindex hepoch hnode hepoch' hnode'
  rw [hchunk, hindex, hepoch, hnode, hepoch', hnode']

lemma reportedTicket_some {cmd : ReportShardRepair} {ticket : ShardRepairTicket}
    (h : state.reportedTicket cmd = some ticket) :
    ticket.chunkId = cmd.chunkId ∧ ticket.index = cmd.index ∧ state.CurrentTicket ticket := by
  rw [reportedTicket, Option.bind_eq_some_iff] at h
  obtain ⟨chunk, hchunk, h⟩ := h
  rw [Option.bind_eq_some_iff] at h
  obtain ⟨slot, hslot, h⟩ := h
  rw [Option.map_eq_some_iff] at h
  obtain ⟨disk, hdisk, rfl⟩ := h
  have hindex : slot.index = cmd.index := by
    simpa using List.find?_some hslot
  refine ⟨rfl, hindex, slot, disk, ?_, hdisk, rfl, rfl⟩
  show state.slotAt cmd.chunkId slot.index = some slot
  rw [slotAt, hchunk, Option.bind_some, hindex]
  exact hslot

/-- A ticket stays current while its slot is not re-bound. -/
lemma CurrentTicket.next {ticket : ShardRepairTicket} (h : state.CurrentTicket ticket)
    (hwf : state.WellFormed) {entry : PdEntry}
    (hspared : ∀ disk, rebinds entry ≠ some (ticket.chunkId, ticket.index, disk)) :
    (state.next entry).CurrentTicket ticket := by
  obtain ⟨slot, disk, hslot, hdisk, hepoch, hnode⟩ := h
  obtain ⟨disk', hdisk', hnode', -⟩ := disks_next hwf entry hdisk
  have hkept : (state.next entry).slotAt ticket.chunkId ticket.index = some slot := by
    cases slotStep hwf entry with
    | same hsame => rw [hsame, hslot]
    | committed chunkId staging hentry hstaging hnew hslots =>
      -- the ticket's chunk was there before, so it is not the one that was committed
      have hne : ticket.chunkId ≠ chunkId := by
        intro heq
        rw [slotAt, heq, hnew] at hslot
        cases hslot
      rw [hslots, if_neg hne, hslot]
    | rebound chunkId index newDisk hentry haff hrebound =>
      obtain ⟨-, rebuilt, -, -, -, hslots⟩ := hrebound.slot
      have hne : ¬(ticket.chunkId = chunkId ∧ ticket.index = index) := by
        rintro ⟨rfl, rfl⟩
        exact hspared newDisk hentry
      rw [hslots, if_neg hne, hslot]
  exact ⟨slot, disk', hkept, hdisk', hepoch, hnode.trans hnode'.symm⟩

lemma TicketsCurrent.next (h : state.TicketsCurrent) (hwf : state.WellFormed) (entry : PdEntry)
    (hspares : state.SparesTickets entry) : (state.next entry).TicketsCurrent := by
  rcases state.next_cases entry with hsame | ⟨result, hok⟩
  · rw [hsame]
    exact h
  · intro key ticket hget
    cases entry with
    | CommitShardMapping cmd =>
      rw [(untouched_applyCommand hok).shardRepairs (by simp [PdEntry.touches])] at hget
      obtain ⟨hkey, hcurrent⟩ := h key ticket hget
      refine ⟨hkey, hcurrent.next hwf fun disk heq => ?_⟩
      simp only [rebinds, Option.some.injEq, Prod.mk.injEq] at heq
      have hnone : OrdMap.get state.shardRepairs key = none := by
        rw [hkey, ShardRepairTicket.shardPrefix, ← heq.1, ← heq.2.1]
        exact hspares
      rw [hnone] at hget
      cases hget
    | ReportShardRepair cmd =>
      have hold : ∀ ticket, state.CurrentTicket ticket →
          (state.next (.ReportShardRepair cmd)).CurrentTicket ticket :=
        fun ticket hcurrent => hcurrent.next hwf fun disk heq => by cases heq
      have happlied := hok
      simp only [applyCommand] at happlied
      cases hreport : state.reportedTicket cmd with
      | none =>
        rw [hreport] at happlied
        rw [← (Prod.mk.inj (Except.ok.inj happlied)).2] at hget
        exact ⟨(h key ticket hget).1, hold ticket (h key ticket hget).2⟩
      | some reported =>
        rw [hreport] at happlied
        rw [← (Prod.mk.inj (Except.ok.inj happlied)).2] at hget
        simp only [ShardRepairIndex.applyReport] at hget
        cases hpending : OrdMap.get state.shardRepairs reported.shardPrefix with
        | some old =>
          rw [hpending] at hget
          exact ⟨(h key ticket hget).1, hold ticket (h key ticket hget).2⟩
        | none =>
          rw [hpending] at hget
          simp only [OrdMap.get_insert] at hget
          by_cases hkey : reported.shardPrefix = key
          · rw [if_pos hkey, Option.some.injEq] at hget
            subst hget
            exact ⟨hkey.symm, hold reported (reportedTicket_some hreport).2.2⟩
          · rw [if_neg hkey] at hget
            exact ⟨(h key ticket hget).1, hold ticket (h key ticket hget).2⟩
    | CommitShardRepair cmd =>
      have happlied := hok
      simp only [applyCommand] at happlied
      split at happlied
      · have hstate := (Prod.mk.inj (Except.ok.inj happlied)).2
        rw [← hstate] at hget ⊢
        exact h key ticket hget
      · rcases rebound_ok happlied with hstate | ⟨-, -, htickets, -⟩
        · rw [hstate] at hget ⊢
          exact h key ticket hget
        · rw [htickets, ShardRepairIndex.applyClear, OrdMap.get_erase] at hget
          by_cases hslot : shardPrefix cmd.chunkId cmd.index = key
          · rw [if_pos hslot] at hget
            cases hget
          · rw [if_neg hslot] at hget
            obtain ⟨hkey, hcurrent⟩ := h key ticket hget
            refine ⟨hkey, hcurrent.next hwf fun disk heq => hslot ?_⟩
            simp only [rebinds, Option.some.injEq, Prod.mk.injEq] at heq
            rw [hkey, heq.1, heq.2.1]
            rfl
    | _ =>
      rw [(untouched_applyCommand hok).shardRepairs (by simp [PdEntry.touches])] at hget
      obtain ⟨hkey, hcurrent⟩ := h key ticket hget
      exact ⟨hkey, hcurrent.next hwf fun disk heq => by cases heq⟩

/-- The tickets of a run that spares them are current. -/
lemma ticketsCurrent_run {entries : List PdEntry}
    (h : Along PdState.next SparesTickets new entries) :
    (run PdState.next new entries).TicketsCurrent := by
  have hnew : new.WellFormed ∧ new.TicketsCurrent :=
    ⟨wellFormed_new, fun key ticket hget => by simp [new] at hget⟩
  exact (Along.invariant (P := fun state => state.WellFormed ∧ state.TicketsCurrent)
    (fun state entry hs hspares => ⟨hs.1.next entry, hs.2.next hs.1 entry hspares⟩)
    hnew h).2

/-! ## What a current ticket is good for -/

lemma applyRebind_of_slot {chunkId : ChunkId} {index : UInt8} {slot : ShardSlot}
    (hslot : state.slotAt chunkId index = some slot) (hroom : slot.epoch < ShardId.maxShardEpoch)
    (newDisk : DiskId) (newCreateTs : Int64) :
    ∃ chunks, state.chunks.applyRebind chunkId index slot.epoch newDisk newCreateTs
      = .ok (none, chunks) := by
  rw [slotAt, Option.bind_eq_some_iff] at hslot
  obtain ⟨chunk, hchunk, hfind⟩ := hslot
  have hlt := UInt32.lt_iff_toNat_lt.mp hroom
  have hmax : ShardId.maxShardEpoch.toNat = 16777215 := rfl
  have hadd : (slot.epoch + 1).toNat = slot.epoch.toNat + 1 := by
    rw [UInt32.toNat_add]
    exact Nat.mod_eq_of_lt (by simp only [UInt32.toNat_one]; omega)
  have hok : (composeSlot chunkId index (slot.epoch + 1) newDisk newCreateTs).isOk = true := by
    rw [composeSlot_isOk, UInt32.le_iff_toNat_le, hadd]
    omega
  rw [ChunkIndex.get] at hchunk
  rw [ChunkIndex.applyRebind]
  simp only [hchunk, hfind, ne_eq, not_true_eq_false, if_false]
  rw [if_neg (by omega)]
  cases hcompose : composeSlot chunkId index (slot.epoch + 1) newDisk newCreateTs with
  | error err =>
    rw [hcompose] at hok
    cases hok
  | ok rebuilt => exact ⟨_, rfl⟩

/-- The dispatched node's commit is accepted unless the placement forbids the disk or the slot's epochs
are used up. -/
def Committable (state : PdState) (ticket : ShardRepairTicket) : Prop :=
  ∀ newDisk newCreateTs, ticket.expectedEpoch < ShardId.maxShardEpoch →
    state.rebindAffinityReject ticket.chunkId ticket.index newDisk = none →
      ∃ state', state.applyCommand (.CommitShardRepair ⟨ticket.chunkId, ticket.index,
        ticket.expectedEpoch, newDisk, newCreateTs, ticket.targetNode⟩)
          = .ok (.ShardRebound (ticket.expectedEpoch + 1), state')

lemma committable_of_current {ticket : ShardRepairTicket} (h : state.CurrentTicket ticket)
    (hpending : OrdMap.get state.shardRepairs ticket.shardPrefix = some ticket) :
    state.Committable ticket := by
  intro newDisk newCreateTs hroom haff
  obtain ⟨slot, disk, hslot, -, hepoch, -⟩ := h
  rw [hepoch] at hroom
  obtain ⟨chunks, hrebind⟩ := applyRebind_of_slot hslot hroom newDisk newCreateTs
  rw [ShardRepairTicket.shardPrefix] at hpending
  refine ⟨{ state with
    chunks
    shardRepairs := state.shardRepairs.applyClear (shardPrefix ticket.chunkId ticket.index) }, ?_⟩
  simp only [applyCommand, hpending, ShardRepairTicket.authorizeCommit, ne_eq, not_true_eq_false,
    if_false, Option.isSome_none, Bool.false_eq_true, rebound, haff, hepoch, hrebind, Except.map]

/-- In every run that re-binds no slot with a pending ticket through a job, every pending ticket names
the epoch and the node of its slot as they are, its commit is not refused as stale, and a report finds no
ticket other than the one it would have made. -/
theorem tickets_usable (entries : List PdEntry)
    (h : Along PdState.next SparesTickets new entries) :
    let state := run PdState.next new entries
    (∀ key ticket, OrdMap.get state.shardRepairs key = some ticket →
      state.CurrentTicket ticket ∧ state.Committable ticket)
      ∧ ∀ cmd reported pending, state.reportedTicket cmd = some reported →
        OrdMap.get state.shardRepairs reported.shardPrefix = some pending → pending = reported := by
  have htickets := ticketsCurrent_run h
  refine ⟨fun key ticket hget => ?_, fun cmd reported pending hreport hget => ?_⟩
  · obtain ⟨rfl, hcurrent⟩ := htickets key ticket hget
    exact ⟨hcurrent, committable_of_current hcurrent hget⟩
  · obtain ⟨hkey, hcurrent⟩ := htickets _ pending hget
    obtain ⟨hchunk, hindex⟩ := shardPrefix_inj hkey
    exact hcurrent.unique (reportedTicket_some hreport).2.2 hchunk.symm hindex.symm

/-! ## A ticket left behind -/

/-- Two data nodes with a disk each, a chunk with one shard on the first disk, and a report of it. -/
def reportedShard : List PdEntry :=
  [.RegisterNode ⟨"n1:9000", "az1", "r1", .DATA⟩, .RegisterNode ⟨"n2:9000", "az1", "r1", .DATA⟩,
    .RegisterDisk ⟨1, "az1", "r1", "/d1", 1000⟩, .RegisterDisk ⟨2, "az1", "r1", "/d1", 1000⟩,
    .CreateChunkStaging ⟨⟨1, 1, 0, 1024, 4096⟩, [⟨0, 1⟩], 5, 0⟩, .CommitChunk ⟨1⟩,
    .ReportShardRepair ⟨1, 0⟩]

/-- The disk breaks, and the repair job moves the reported shard to the second node. -/
def repairedByJob : List PdEntry :=
  reportedShard ++ [.Job (.Create (.RepairDisk 1)), .Job (.Assign 1 2 30000),
    .CommitShardMapping ⟨1, 1, 0, 0, 2, 6, 2⟩]

/-- The job's re-bind leaves the ticket behind: it names epoch 0 and node 1 where the slot has epoch 1
on a disk of node 2, the dispatched node's commit is refused, and a new report of the slot is dropped. -/
theorem mapping_strands_ticket :
    let state := run PdState.next new repairedByJob
    OrdMap.get state.shardRepairs (shardPrefix 1 0) = some ⟨1, 0, 1, 0⟩
      ∧ (state.slotAt 1 0).map (fun slot => (slot.epoch, slot.diskId)) = some (1, 2)
      ∧ (state.applyCommand (.CommitShardRepair ⟨1, 0, 0, 1, 7, 1⟩)).map Prod.fst
        = .ok (.Rejected .InvalidTransition)
      ∧ (state.applyCommand (.ReportShardRepair ⟨1, 0⟩)).map Prod.fst
        = .ok (.ShardRepairReported false)
      ∧ (state.reportedTicket ⟨1, 0⟩) = some ⟨1, 0, 2, 1⟩ := by
  decide +kernel

/-- A repair through its ticket, and a second report of the same slot. -/
def repairedByTicket : List PdEntry :=
  reportedShard ++ [.CommitShardRepair ⟨1, 0, 0, 1, 6, 1⟩, .ReportShardRepair ⟨1, 0⟩]

theorem tickets_usable_demo :
    let state := run PdState.next new repairedByTicket
    OrdMap.get state.shardRepairs (shardPrefix 1 0) = some ⟨1, 0, 1, 1⟩
      ∧ state.CurrentTicket ⟨1, 0, 1, 1⟩ ∧ state.Committable ⟨1, 0, 1, 1⟩ := by
  have hspares : Along PdState.next SparesTickets new repairedByTicket := by decide +kernel
  have hpending : OrdMap.get (run PdState.next new repairedByTicket).shardRepairs (shardPrefix 1 0)
      = some ⟨1, 0, 1, 1⟩ := by decide +kernel
  exact ⟨hpending, (tickets_usable repairedByTicket hspares).1 _ _ hpending⟩

end PdState

end Epoch.Pd
