import Epoch.Pd.State

/-!
# Heartbeats and writer liveness (`cluster/heartbeat.rs`, `writer/liveness.rs`)

Every replica of the PD group has a tracker in its memory: when it last heard of each node, what the node said
of its disks, and the commit watermarks of the writers.  Only the leader takes heartbeats in.  Nothing is shared
and nothing is cleared when another replica takes the lead, so that a replica that leads again still has the
times of its earlier term.

The sweep over dead writers retires the sessions of nodes it heard of longer ago than a threshold.  On a
replica with old times that includes nodes whose heartbeats others accepted meanwhile
(`second_term_retires_writer`).  `retired_were_silent` says that the sweep is right when every heartbeat of the
last period was accepted by the replica that sweeps.
-/

namespace Epoch.Pd

structure DiskStats where
  free : UInt64
  used : UInt64
  writableExtents : UInt32
  broken : Bool
deriving DecidableEq

structure NodeHeartbeat where
  lastSeenMillis : UInt64
  disks : OrdMap DiskId DiskStats

structure HeartbeatReport where
  nodeId : NodeId
  disks : List (DiskId × DiskStats)
deriving DecidableEq

structure HeartbeatTracker where
  inner : OrdMap NodeId NodeHeartbeat
  watermarks : OrdMap WriterToken ℤ

namespace HeartbeatTracker

def new : HeartbeatTracker := ⟨.empty, .empty⟩

variable (tracker : HeartbeatTracker)

/-- A heartbeat replaces the time and the whole set of disks. -/
def record (report : HeartbeatReport) (nowMillis : UInt64) : HeartbeatTracker :=
  let disks := report.disks.foldl (fun disks d => OrdMap.insert disks d.1 d.2) .empty
  { tracker with inner := tracker.inner.insert report.nodeId ⟨nowMillis, disks⟩ }

/-- A writer heartbeat refreshes the time only. -/
def touch (nodeId : NodeId) (nowMillis : UInt64) : HeartbeatTracker :=
  let heartbeat : NodeHeartbeat :=
    match tracker.inner.get nodeId with
    | some heartbeat => { heartbeat with lastSeenMillis := nowMillis }
    | none => ⟨nowMillis, .empty⟩
  { tracker with inner := tracker.inner.insert nodeId heartbeat }

/-- A lower watermark than the recorded one is ignored. -/
def recordWatermark (token : WriterToken) (watermark : ℤ) : HeartbeatTracker :=
  match tracker.watermarks.get token with
  | some recorded =>
    if recorded < watermark then
      { tracker with watermarks := tracker.watermarks.insert token watermark }
    else tracker
  | none => { tracker with watermarks := tracker.watermarks.insert token watermark }

/-- The recorded watermark, or -1. -/
def watermark (token : WriterToken) : ℤ := (tracker.watermarks.get token).getD (-1)

/-- Milliseconds since the node was last seen, the greatest value if it never was. -/
def staleness (nodeId : NodeId) (nowMillis : UInt64) : UInt64 :=
  match tracker.inner.get nodeId with
  | some heartbeat =>
    if heartbeat.lastSeenMillis ≤ nowMillis then nowMillis - heartbeat.lastSeenMillis else 0
  | none => 0xFFFFFFFFFFFFFFFF

/-- Every disk that a heartbeat flags as broken, by node and disk. -/
def brokenDisks : List (NodeId × DiskId) :=
  tracker.inner.toList.flatMap fun node =>
    (node.2.disks.toList.filter fun disk => disk.2.broken).map fun disk => (node.1, disk.1)

end HeartbeatTracker

/-- The sessions to retire: the node was seen, and longer ago than the threshold. -/
def deadWriterPlan (live : List (WriterToken × NodeId)) (staleness : NodeId → UInt64)
    (deadAfterMillis : UInt64) : List MarkWriterDead :=
  (live.filter fun session =>
    staleness session.2 ≠ 0xFFFFFFFFFFFFFFFF ∧ deadAfterMillis < staleness session.2).map
      fun session => ⟨session.1⟩

/-! ## The group -/

abbrev ReplicaId := ℕ

/-- A heartbeat that was accepted. -/
structure AcceptedHeartbeat where
  replica : ReplicaId
  nodeId : NodeId
  atMillis : UInt64
deriving DecidableEq

/-- The replicated state, each replica's memory, the present leader and the common clock, with all heartbeats
accepted so far. -/
structure PdGroup where
  pd : PdState
  trackers : ReplicaId → HeartbeatTracker
  leader : Option ReplicaId
  nowMillis : UInt64
  accepted : List AcceptedHeartbeat

inductive GroupEvent
  | entry (entry : PdEntry)
  | clock (nowMillis : UInt64)
  | elect (leader : Option ReplicaId)
  /-- A replica loses its memory. -/
  | restart (replica : ReplicaId)
  | nodeHeartbeat (report : HeartbeatReport)
  | writerHeartbeat (nodeId : NodeId) (token : WriterToken) (watermark : ℤ)
  /-- The leader's sweep over dead writers, with the proposals that are committed. -/
  | sweepDeadWriters (deadAfterMillis : UInt64) (committed : MarkWriterDead → Bool)

namespace PdGroup

def new : PdGroup := ⟨.new, fun _ => .new, none, 0, []⟩

variable (g : PdGroup)

/-- The leader takes a heartbeat in; anyone else turns it away. -/
def accept (nodeId : NodeId) (update : HeartbeatTracker → HeartbeatTracker) : PdGroup :=
  match g.leader with
  | none => g
  | some replica =>
    { g with
      trackers := Function.update g.trackers replica (update (g.trackers replica))
      accepted := ⟨replica, nodeId, g.nowMillis⟩ :: g.accepted }

/-- What a sweep of the leader proposes. -/
def retirements (deadAfterMillis : UInt64) : List MarkWriterDead :=
  match g.leader with
  | none => []
  | some replica =>
    deadWriterPlan g.pd.writers.liveSessions
      (fun nodeId => (g.trackers replica).staleness nodeId g.nowMillis) deadAfterMillis

def step : GroupEvent → PdGroup
  | .entry entry => { g with pd := g.pd.next entry }
  | .clock nowMillis => { g with nowMillis := max g.nowMillis nowMillis }
  | .elect leader => { g with leader }
  | .restart replica => { g with trackers := Function.update g.trackers replica .new }
  | .nodeHeartbeat report => g.accept report.nodeId fun tracker => tracker.record report g.nowMillis
  | .writerHeartbeat nodeId token watermark =>
    g.accept nodeId fun tracker =>
      (tracker.touch nodeId g.nowMillis).recordWatermark token watermark
  | .sweepDeadWriters deadAfterMillis committed =>
    { g with
      pd := run PdState.next g.pd
        (((g.retirements deadAfterMillis).filter committed).map PdEntry.MarkWriterDead) }

end PdGroup

/-- The heartbeat lies in the last `period` milliseconds before `now`. -/
def AcceptedHeartbeat.Within (h : AcceptedHeartbeat) (now period : UInt64) : Prop :=
  now.toNat < h.atMillis.toNat + period.toNat ∧ h.atMillis ≤ now

instance (h : AcceptedHeartbeat) (now period : UInt64) : Decidable (h.Within now period) :=
  inferInstanceAs (Decidable (_ ∧ _))

/-! ## What a replica remembers -/

namespace PdGroup

variable {g : PdGroup}

/-- A remembered time is at least that of every heartbeat of the node that the replica accepted, and no heartbeat is
of the future. -/
structure Remembers (g : PdGroup) : Prop where
  past : ∀ h ∈ g.accepted, h.atMillis ≤ g.nowMillis
  latest : ∀ replica nodeId heartbeat, (g.trackers replica).inner.get nodeId = some heartbeat →
    ∀ h ∈ g.accepted, h.replica = replica → h.nodeId = nodeId →
      h.atMillis ≤ heartbeat.lastSeenMillis

/-- The update sets the time of one node to now and leaves the times of the others. -/
def Refreshes (update : HeartbeatTracker → HeartbeatTracker) (nodeId : NodeId) (now : UInt64) : Prop :=
  ∀ tracker id, ((update tracker).inner.get id).map NodeHeartbeat.lastSeenMillis
    = if nodeId = id then some now
      else (tracker.inner.get id).map NodeHeartbeat.lastSeenMillis

lemma refreshes_record (report : HeartbeatReport) (now : UInt64) :
    Refreshes (fun tracker => tracker.record report now) report.nodeId now := by
  intro tracker id
  simp only [HeartbeatTracker.record, OrdMap.get_insert]
  split_ifs <;> rfl

lemma inner_recordWatermark (tracker : HeartbeatTracker) (token : WriterToken) (watermark : ℤ) :
    (tracker.recordWatermark token watermark).inner = tracker.inner := by
  rw [HeartbeatTracker.recordWatermark]
  cases tracker.watermarks.get token with
  | none => rfl
  | some recorded =>
    simp only
    split_ifs <;> rfl

lemma refreshes_touch (nodeId : NodeId) (token : WriterToken) (watermark : ℤ) (now : UInt64) :
    Refreshes (fun tracker => (tracker.touch nodeId now).recordWatermark token watermark) nodeId
      now := by
  intro tracker id
  simp only [inner_recordWatermark, HeartbeatTracker.touch, OrdMap.get_insert]
  split_ifs
  · cases tracker.inner.get nodeId <;> rfl
  · rfl

lemma Remembers.accept (h : g.Remembers) {nodeId : NodeId}
    {update : HeartbeatTracker → HeartbeatTracker} (hupdate : Refreshes update nodeId g.nowMillis) :
    (g.accept nodeId update).Remembers := by
  unfold PdGroup.accept
  cases hleader : g.leader with
  | none => exact h
  | some leader =>
    refine ⟨fun b hb => ?_, fun replica id heartbeat hget b hb hreplica hid => ?_⟩
    · rcases List.mem_cons.mp hb with rfl | hb
      · exact le_rfl
      · exact h.past b hb
    · by_cases hsame : replica = leader
      · subst hsame
        simp only [Function.update_self] at hget
        have hseen := hupdate (g.trackers replica) id
        rw [hget, Option.map_some] at hseen
        by_cases hnode : nodeId = id
        · -- The heartbeat was just taken in, and none is later than now.
          rw [if_pos hnode] at hseen
          rw [Option.some.inj hseen]
          rcases List.mem_cons.mp hb with rfl | hb
          · exact le_rfl
          · exact h.past b hb
        · rw [if_neg hnode] at hseen
          obtain ⟨old, hold, heq⟩ := Option.map_eq_some_iff.mp hseen.symm
          rw [← heq]
          rcases List.mem_cons.mp hb with rfl | hb
          · exact absurd hid hnode
          · exact h.latest replica id old hold b hb hreplica hid
      · simp only [Function.update_of_ne hsame] at hget
        rcases List.mem_cons.mp hb with rfl | hb
        · exact absurd hreplica.symm hsame
        · exact h.latest replica id heartbeat hget b hb hreplica hid

theorem Remembers.step (h : g.Remembers) (event : GroupEvent) : (g.step event).Remembers := by
  cases event with
  | entry entry => exact ⟨h.past, h.latest⟩
  | clock now => exact ⟨fun b hb => (h.past b hb).trans (le_max_left _ _), h.latest⟩
  | elect leader => exact ⟨h.past, h.latest⟩
  | restart replica =>
    refine ⟨h.past, fun replica' id heartbeat hget => ?_⟩
    by_cases hsame : replica' = replica
    · subst hsame
      simp [PdGroup.step, HeartbeatTracker.new] at hget
    · simp only [PdGroup.step, Function.update_of_ne hsame] at hget
      exact h.latest replica' id heartbeat hget
  | nodeHeartbeat report => exact h.accept (refreshes_record report g.nowMillis)
  | writerHeartbeat nodeId token watermark =>
    exact h.accept (refreshes_touch nodeId token watermark g.nowMillis)
  | sweepDeadWriters deadAfter committed => exact ⟨h.past, h.latest⟩

lemma remembers_run (events : List GroupEvent) : (run step new events).Remembers := by
  have hnew : PdGroup.new.Remembers :=
    ⟨fun b hb => absurd hb List.not_mem_nil, fun _ _ _ _ b hb => absurd hb List.not_mem_nil⟩
  exact Along.invariant (P := Remembers) (G := fun _ _ => True) (fun _ event hg _ => hg.step event)
    hnew (along_of_forall (fun _ _ _ => trivial) _)

/-! ## Retired sessions -/

/-- Sessions lie under their own tokens. -/
def WritersKeyed (pd : PdState) : Prop :=
  ∀ token record, pd.writers.writers.get token = some record → record.token = token

lemma writersKeyed_next {pd : PdState} (h : WritersKeyed pd) (entry : PdEntry) :
    WritersKeyed (pd.next entry) := by
  rcases pd.next_cases entry with hsame | ⟨result, hok⟩
  · rw [hsame]
    exact h
  · generalize pd.next entry = pd' at hok
    intro token record hget
    cases entry with
    | RegisterWriter cmd =>
      simp only [PdState.applyCommand] at hok
      by_cases hnode : pd.nodes.contains cmd.nodeId = true
      · simp only [hnode, Bool.not_true, Bool.false_eq_true, if_false] at hok
        obtain ⟨⟨fresh, index⟩, hregister, heq⟩ := map_eq_ok hok
        cases heq
        obtain ⟨nextId, -, hindex⟩ := map_eq_ok hregister
        cases hindex
        simp only [OrdMap.get_insert] at hget
        split_ifs at hget with htoken
        · exact (congrArg WriterRecord.token (Option.some.inj hget)).symm.trans htoken
        · exact h token record hget
      · simp only [hnode, Bool.not_false, if_true] at hok
        cases hok
        exact h token record hget
    | MarkWriterDead cmd =>
      cases hok
      simp only [WriterIndex.applyMarkDead] at hget
      cases hcurrent : pd.writers.writers.get cmd.token with
      | none =>
        simp only [hcurrent] at hget
        exact h token record hget
      | some current =>
        simp only [hcurrent] at hget
        split_ifs at hget
        · exact h token record hget
        · simp only [OrdMap.get_insert] at hget
          split_ifs at hget with htoken
          · rw [← Option.some.inj hget, ← htoken]
            exact h cmd.token current hcurrent
          · exact h token record hget
    | _ =>
      rw [(PdState.untouched_applyCommand hok).writers (by simp [PdEntry.touches])] at hget
      exact h token record hget

lemma writersKeyed_step (h : WritersKeyed g.pd) (event : GroupEvent) :
    WritersKeyed (g.step event).pd := by
  have hrun : ∀ (entries : List PdEntry) (pd : PdState), WritersKeyed pd →
      WritersKeyed (run PdState.next pd entries) := by
    intro entries
    induction entries with
    | nil => exact fun _ hpd => hpd
    | cons entry entries ih => exact fun pd hpd => ih _ (writersKeyed_next hpd entry)
  have haccept : ∀ (nodeId : NodeId) (update : HeartbeatTracker → HeartbeatTracker),
      (g.accept nodeId update).pd = g.pd := by
    intro nodeId update
    rw [accept]
    cases g.leader <;> rfl
  cases event with
  | entry entry => exact writersKeyed_next h entry
  | nodeHeartbeat report =>
    rw [step, haccept]
    exact h
  | writerHeartbeat nodeId token watermark =>
    rw [step, haccept]
    exact h
  | sweepDeadWriters deadAfter committed => exact hrun _ _ h
  | _ => exact h

lemma writersKeyed_run (events : List GroupEvent) : WritersKeyed (run step new events).pd := by
  have hnew : WritersKeyed PdGroup.new.pd := fun token record h => by
    simp [new, PdState.new, WriterIndex.new] at h
  exact Along.invariant (P := fun g : PdGroup => WritersKeyed g.pd) (G := fun _ _ => True)
    (fun _ event hg _ => writersKeyed_step hg event) hnew
    (along_of_forall (fun _ _ _ => trivial) _)

/-- A retired session's node was last seen by the sweeping replica before the period began. -/
lemma lastSeen_of_retired (hkeyed : WritersKeyed g.pd) {deadAfter : UInt64} {token : WriterToken}
    {record : WriterRecord} (h : ⟨token⟩ ∈ g.retirements deadAfter)
    (hrecord : g.pd.writers.writers.get token = some record) :
    ∃ replica heartbeat, g.leader = some replica
      ∧ (g.trackers replica).inner.get record.nodeId = some heartbeat
      ∧ heartbeat.lastSeenMillis.toNat + deadAfter.toNat < g.nowMillis.toNat := by
  rw [retirements] at h
  cases hleader : g.leader with
  | none =>
    rw [hleader] at h
    cases h
  | some replica =>
    rw [hleader] at h
    obtain ⟨⟨token', nodeId⟩, hsession, heq⟩ := List.mem_map.mp h
    obtain ⟨hlive, hstale⟩ := List.mem_filter.mp hsession
    obtain ⟨hseen, hlate⟩ := of_decide_eq_true hstale
    obtain ⟨record', hrecord', hpair⟩ := List.mem_map.mp hlive
    obtain ⟨⟨key, record''⟩, hmem, rfl⟩ := List.mem_map.mp (List.mem_filter.mp hrecord').1
    -- The session is the one of the token.
    have hget := (OrdMap.mem_toList_iff _ _ _).mp hmem
    have hkey : key = token := by
      rw [← hkeyed key record'' hget]
      exact (congrArg Prod.fst hpair).trans (congrArg MarkWriterDead.token heq)
    rw [hkey, hrecord] at hget
    have hnode : record.nodeId = nodeId := by
      rw [Option.some.inj hget]
      exact congrArg Prod.snd hpair
    rw [hnode]
    simp only [HeartbeatTracker.staleness] at hseen hlate
    cases hinner : (g.trackers replica).inner.get nodeId with
    | none =>
      simp only [hinner] at hseen
      exact absurd rfl hseen
    | some heartbeat =>
      simp only [hinner] at hlate
      refine ⟨replica, heartbeat, rfl, hinner, ?_⟩
      split_ifs at hlate with hle
      · rw [UInt64.lt_iff_toNat_lt, UInt64.toNat_sub_of_le _ _ hle] at hlate
        omega
      · exact absurd hlate (by simp)

/-- A sweep is of a replica that accepted all heartbeats of the last period itself. -/
def SweepsOwn (g : PdGroup) : GroupEvent → Prop
  | .sweepDeadWriters deadAfterMillis _ => ∀ replica ∈ g.leader, ∀ h ∈ g.accepted,
      h.Within g.nowMillis deadAfterMillis → h.replica = replica
  | _ => True

instance (g : PdGroup) (event : GroupEvent) : Decidable (g.SweepsOwn event) := by
  cases event <;> simp only [SweepsOwn] <;> infer_instance

/-- In every run whose sweeps are of replicas that accepted the heartbeats of the last period themselves, a sweep
retires only sessions of nodes of which nobody accepted a heartbeat in that period. -/
theorem retired_were_silent (before after : List GroupEvent) (deadAfter : UInt64)
    (committed : MarkWriterDead → Bool)
    (h : Along step SweepsOwn new (before ++ .sweepDeadWriters deadAfter committed :: after)) :
    let g := run step new before
    ∀ token record, ⟨token⟩ ∈ g.retirements deadAfter →
      g.pd.writers.writers.get token = some record →
      ∀ b ∈ g.accepted, b.nodeId = record.nodeId → ¬b.Within g.nowMillis deadAfter := by
  intro g token record hretired hrecord b hb hnode hwithin
  obtain ⟨-, hown⟩ := h.middle
  obtain ⟨replica, heartbeat, hleader, hget, hlast⟩ :=
    lastSeen_of_retired (writersKeyed_run before) hretired hrecord
  have hreplica : b.replica = replica := hown replica hleader b hb hwithin
  have hle := (remembers_run before).latest replica record.nodeId heartbeat hget b hb hreplica hnode
  have hle' : b.atMillis.toNat ≤ heartbeat.lastSeenMillis.toNat := UInt64.le_iff_toNat_le.mp hle
  have hin : (run step new before).nowMillis.toNat < b.atMillis.toNat + deadAfter.toNat := hwithin.1
  omega

/-- A gateway's session; replica 1 leads and hears of the gateway at 1000. -/
def firstTerm : List GroupEvent :=
  [.entry (.RegisterNode ⟨"g1", "az", "r1", .GATEWAY⟩), .entry (.RegisterWriter ⟨1⟩),
    .elect (some 1), .clock 1000, .writerHeartbeat 1 1 0]

theorem retired_were_silent_demo :
    let g := run step new (firstTerm ++ [.clock 101000])
    g.retirements 90000 = [⟨1⟩] ∧ ∀ b ∈ g.accepted, b.nodeId = 1 → ¬b.Within 101000 90000 := by
  have hown : Along step SweepsOwn new
      ((firstTerm ++ [.clock 101000]) ++ .sweepDeadWriters 90000 (fun _ => true) :: []) := by
    decide +kernel
  have hplan : (run step new (firstTerm ++ [.clock 101000])).retirements 90000 = [⟨1⟩] := by
    decide +kernel
  have hrecord : (run step new (firstTerm ++ [.clock 101000])).pd.writers.writers.get 1
      = some ⟨1, 1, .Live⟩ := by decide +kernel
  have hnow : (run step new (firstTerm ++ [.clock 101000])).nowMillis = 101000 := by decide +kernel
  refine ⟨hplan, ?_⟩
  have hsilent := retired_were_silent _ _ _ _ hown 1 _ (by rw [hplan]; exact List.mem_cons_self)
    hrecord
  rw [hnow] at hsilent
  exact hsilent

/-- Replica 2 leads from then on and accepts the gateway's heartbeats, the last at 100000.  Replica 1 leads again
at 101000 and retires the session by its memory of 1000. -/
theorem second_term_retires_writer :
    let g := run step new (firstTerm ++ [.elect (some 2), .clock 100000, .writerHeartbeat 1 1 0,
      .clock 101000, .elect (some 1)])
    g.retirements 90000 = [⟨1⟩] ∧ (⟨2, 1, 100000⟩ : AcceptedHeartbeat) ∈ g.accepted
      ∧ (⟨2, 1, 100000⟩ : AcceptedHeartbeat).Within g.nowMillis 90000 := by
  decide +kernel

end PdGroup

end Epoch.Pd
