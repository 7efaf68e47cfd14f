import Epoch.Pd.State

/-!
# Scheduling decisions for partitions (`epoch-pd/src/meta_sched/plan.rs`)

From the route table, the leaders' size reports and the liveness of the metadata nodes the planner decides
which partitions to split and which replicas to move.  Replicas on nodes that are not live move first; what is
left of the budget goes to balancing, where the arithmetic is in floating point as in the source.

Whatever it decides to move, it moves from a peer of the partition to a node that is not one
(`mem_planMigrations`), as the partition was when the planner read it.
-/

namespace Epoch.Pd

structure PartitionLoad where
  partitionId : PartitionId
  peers : List NodeId
  epoch : UInt64
  totalBytes : UInt64
  splittable : Bool
deriving DecidableEq

structure MetaNodeInfo where
  nodeId : NodeId
  status : NodeStatus
  rack : String
deriving DecidableEq

structure SchedulerConfig where
  splitThresholdBytes : UInt64
  maxConcurrentMigrations : ℕ
  migrateTolerantRatio : Float

structure SplitDecision where
  parentId : PartitionId
  epoch : UInt64
deriving DecidableEq

inductive MigrateReason
  | Evacuate
  | Balance
deriving DecidableEq

structure MigrateDecision where
  partitionId : PartitionId
  source : NodeId
  target : NodeId
  reason : MigrateReason
  epoch : UInt64
deriving DecidableEq

/-! ## What the planner reads -/

def isSplittable (p : MetaPartition) : Bool :=
  if p.start.unbounded || p.stop.unbounded then true else p.start.coord ≠ p.stop.coord

/-- The route records joined with the sizes the leaders reported, 0 where none did. -/
def gatherLoads (partitions : List MetaPartition) (totalBytes : PartitionId → Option UInt64) :
    List PartitionLoad :=
  partitions.map fun p =>
    ⟨p.partitionId, p.peers, p.epoch, (totalBytes p.partitionId).getD 0, isSplittable p⟩

def gatherMetaNodes (nodes : NodeIndex) : List MetaNodeInfo :=
  (nodes.list.filter fun node => node.roles.contains .META).map fun node =>
    ⟨node.nodeId, node.status, node.rack⟩

/-! ## Splits -/

def planSplits (loads : List PartitionLoad) (cfg : SchedulerConfig) : List SplitDecision :=
  ((loads.filter fun p => p.splittable ∧ cfg.splitThresholdBytes < p.totalBytes).map fun p =>
    (⟨p.partitionId, p.epoch⟩ : SplitDecision)).insertionSort fun a b => a.parentId ≤ b.parentId

/-! ## Migrations -/

abbrev LoadByNode := OrdMap NodeId ℤ

def loadOf (load : LoadByNode) (node : NodeId) : ℤ := (OrdMap.get load node).getD 0

-- The order of the integers without its completeness, which has no executable form.
local instance (priority := 2000) preorderInt : Preorder ℤ := Int.instLinearOrder.toPreorder

/-- The live node with the fewest replicas that is no peer of the partition. -/
def pickHungriestTarget (p : PartitionLoad) (live : List MetaNodeInfo) (load : LoadByNode) :
    Option NodeId :=
  ((live.filter fun node => node.nodeId ∉ p.peers).argmin fun node =>
    (toLex (loadOf load node.nodeId, node.nodeId) : ℤ ×ₗ NodeId)).map MetaNodeInfo.nodeId

/-- The replica counts after a planned move. -/
def movedLoad (load : LoadByNode) (source target : NodeId) : LoadByNode :=
  let added := OrdMap.insert load target (loadOf load target + 1)
  match OrdMap.get added source with
  | some count => OrdMap.insert added source (count - 1)
  | none => added

/-- One peer of one partition in the evacuation loops. -/
def evacuatePeer (dead : List NodeId) (live : List MetaNodeInfo) (p : PartitionLoad)
    (acc : LoadByNode × List MigrateDecision) (source : NodeId) :
    LoadByNode × List MigrateDecision :=
  if source ∉ dead then acc
  else
    match pickHungriestTarget p live acc.1 with
    | none => acc
    | some target =>
      (movedLoad acc.1 source target,
        acc.2 ++ [⟨p.partitionId, source, target, .Evacuate, p.epoch⟩])

def planEvacuations (loads : List PartitionLoad) (nodes live : List MetaNodeInfo)
    (acc : LoadByNode × List MigrateDecision) : LoadByNode × List MigrateDecision :=
  let dead := (nodes.filter fun node => node.status ≠ .Live).map MetaNodeInfo.nodeId
  if dead = [] then acc
  else loads.foldl (fun acc p => p.peers.foldl (evacuatePeer dead live p) acc) acc

/-- One partition in the balancing loop.  `max_by_key` returns the last of several maxima. -/
def balancePartition (live : List MetaNodeInfo) (maxMigrations : ℕ) (quota tolerance : Float)
    (acc : LoadByNode × List MigrateDecision) (p : PartitionLoad) :
    LoadByNode × List MigrateDecision :=
  if maxMigrations ≤ acc.2.length then acc
  else
    match p.peers.reverse.argmax (loadOf acc.1) with
    | none => acc
    | some source =>
      let sourceLoad := loadOf acc.1 source
      if Float.ofInt sourceLoad ≤ quota + tolerance then acc
      else
        match pickHungriestTarget p live acc.1 with
        | none => acc
        | some target =>
          if Float.ofInt (sourceLoad - loadOf acc.1 target) ≤ 2.0 * tolerance then acc
          else
            (movedLoad acc.1 source target,
              acc.2 ++ [⟨p.partitionId, source, target, .Balance, p.epoch⟩])

def planBalance (loads : List PartitionLoad) (live : List MetaNodeInfo) (cfg : SchedulerConfig)
    (acc : LoadByNode × List MigrateDecision) : LoadByNode × List MigrateDecision :=
  let totalReplicas := (acc.1.toList.map Prod.snd).sum
  let quota := Float.ofInt totalReplicas / Float.ofNat live.length
  let scaled := quota * cfg.migrateTolerantRatio
  let tolerance := if 1.0 ≤ scaled then scaled else 1.0
  (loads.insertionSort fun a b => a.partitionId ≤ b.partitionId).foldl
    (balancePartition live cfg.maxConcurrentMigrations quota tolerance) acc

/-- Replicas per node: the live nodes, and every peer of every partition. -/
def initialLoad (loads : List PartitionLoad) (live : List MetaNodeInfo) : LoadByNode :=
  (loads.flatMap PartitionLoad.peers).foldl
    (fun load peer => OrdMap.insert load peer (loadOf load peer + 1))
    (live.foldl (fun load node => OrdMap.insert load node.nodeId 0) .empty)

def planMigrations (loads : List PartitionLoad) (nodes : List MetaNodeInfo) (cfg : SchedulerConfig) :
    List MigrateDecision :=
  let live := nodes.filter fun node => node.status = .Live
  if live = [] then []
  else
    let evacuated := planEvacuations loads nodes live (initialLoad loads live, [])
    let planned :=
      if evacuated.2.length < cfg.maxConcurrentMigrations then planBalance loads live cfg evacuated
      else evacuated
    planned.2.take cfg.maxConcurrentMigrations

/-! ## What is planned -/

variable {loads : List PartitionLoad} {cfg : SchedulerConfig}

lemma mem_planSplits {d : SplitDecision} (h : d ∈ planSplits loads cfg) :
    ∃ p ∈ loads, d.parentId = p.partitionId ∧ d.epoch = p.epoch := by
  obtain ⟨p, hp, rfl⟩ := List.mem_map.mp ((List.mem_insertionSort _).mp h)
  exact ⟨p, (List.mem_filter.mp hp).1, rfl, rfl⟩

lemma length_planMigrations_le (loads : List PartitionLoad) (nodes : List MetaNodeInfo)
    (cfg : SchedulerConfig) :
    (planMigrations loads nodes cfg).length ≤ cfg.maxConcurrentMigrations := by
  rw [planMigrations]
  split_ifs
  · exact Nat.zero_le _
  · exact List.length_take_le _ _

/-- The decision moves a replica of one of the partitions to a node without one. -/
def PlannedFrom (loads : List PartitionLoad) (d : MigrateDecision) : Prop :=
  ∃ p ∈ loads, d.partitionId = p.partitionId ∧ d.epoch = p.epoch ∧ d.source ∈ p.peers
    ∧ d.target ∉ p.peers

lemma pickHungriestTarget_notMem {p : PartitionLoad} {live : List MetaNodeInfo} {load : LoadByNode}
    {target : NodeId} (h : pickHungriestTarget p live load = some target) : target ∉ p.peers := by
  rw [pickHungriestTarget, Option.map_eq_some_iff] at h
  obtain ⟨node, hnode, rfl⟩ := h
  have hmem := List.argmin_mem hnode
  simpa using (List.mem_filter.mp hmem).2

section Planned

variable {loads : List PartitionLoad} {live : List MetaNodeInfo}
  {acc : LoadByNode × List MigrateDecision} {dead : List NodeId} {p : PartitionLoad}

lemma plannedFrom_evacuatePeer {source : NodeId} (hp : p ∈ loads) (hsource : source ∈ p.peers)
    (h : ∀ d ∈ acc.2, PlannedFrom loads d) :
    ∀ d ∈ (evacuatePeer dead live p acc source).2, PlannedFrom loads d := by
  rw [evacuatePeer]
  by_cases hdead : source ∉ dead
  · rw [if_pos hdead]
    exact h
  · rw [if_neg hdead]
    cases hpick : pickHungriestTarget p live acc.1 with
    | none => exact h
    | some target =>
      intro d hd
      rcases List.mem_append.mp hd with hd | hd
      · exact h d hd
      · rw [List.mem_singleton.mp hd]
        exact ⟨p, hp, rfl, rfl, hsource, pickHungriestTarget_notMem hpick⟩

lemma plannedFrom_peers (hp : p ∈ loads) {peers : List NodeId} (hpeers : peers ⊆ p.peers)
    (h : ∀ d ∈ acc.2, PlannedFrom loads d) :
    ∀ d ∈ (peers.foldl (evacuatePeer dead live p) acc).2, PlannedFrom loads d := by
  induction peers generalizing acc with
  | nil => exact h
  | cons source peers ih =>
    obtain ⟨hsource, hrest⟩ := List.cons_subset.mp hpeers
    exact ih hrest (plannedFrom_evacuatePeer hp hsource h)

variable {ps : List PartitionLoad} {maxMigrations : ℕ} {quota tolerance : Float}

lemma plannedFrom_partitions (hps : ps ⊆ loads) (h : ∀ d ∈ acc.2, PlannedFrom loads d) :
    ∀ d ∈ (ps.foldl (fun acc p => p.peers.foldl (evacuatePeer dead live p) acc) acc).2,
      PlannedFrom loads d := by
  induction ps generalizing acc with
  | nil => exact h
  | cons p ps ih =>
    obtain ⟨hp, hrest⟩ := List.cons_subset.mp hps
    exact ih hrest (plannedFrom_peers hp (fun _ hx => hx) h)

lemma plannedFrom_balancePartition (hp : p ∈ loads) (h : ∀ d ∈ acc.2, PlannedFrom loads d) :
    ∀ d ∈ (balancePartition live maxMigrations quota tolerance acc p).2, PlannedFrom loads d := by
  rw [balancePartition]
  by_cases hfull : maxMigrations ≤ acc.2.length
  · rw [if_pos hfull]
    exact h
  · rw [if_neg hfull]
    cases hmax : p.peers.reverse.argmax (loadOf acc.1) with
    | none => exact h
    | some source =>
      simp only
      by_cases hquota : Float.ofInt (loadOf acc.1 source) ≤ quota + tolerance
      · rw [if_pos hquota]
        exact h
      · rw [if_neg hquota]
        cases hpick : pickHungriestTarget p live acc.1 with
        | none => exact h
        | some target =>
          simp only
          by_cases hgap : Float.ofInt (loadOf acc.1 source - loadOf acc.1 target)
              ≤ 2.0 * tolerance
          · rw [if_pos hgap]
            exact h
          · rw [if_neg hgap]
            intro d hd
            rcases List.mem_append.mp hd with hd | hd
            · exact h d hd
            · rw [List.mem_singleton.mp hd]
              exact ⟨p, hp, rfl, rfl, List.mem_reverse.mp (List.argmax_mem hmax),
                pickHungriestTarget_notMem hpick⟩

lemma plannedFrom_balance (hps : ps ⊆ loads) (h : ∀ d ∈ acc.2, PlannedFrom loads d) :
    ∀ d ∈ (ps.foldl (balancePartition live maxMigrations quota tolerance) acc).2,
      PlannedFrom loads d := by
  induction ps generalizing acc with
  | nil => exact h
  | cons p ps ih =>
    obtain ⟨hp, hrest⟩ := List.cons_subset.mp hps
    exact ih hrest (plannedFrom_balancePartition hp h)

end Planned

/-- Every planned migration takes a peer of the partition it read to a node that was no peer of it. -/
theorem mem_planMigrations {nodes : List MetaNodeInfo} {d : MigrateDecision}
    (h : d ∈ planMigrations loads nodes cfg) :
    PlannedFrom loads d := by
  rw [planMigrations] at h
  by_cases hlive : (nodes.filter fun node => node.status = .Live) = []
  · rw [if_pos hlive] at h
    exact absurd h List.not_mem_nil
  · rw [if_neg hlive] at h
    have hd := List.mem_of_mem_take h
    have hevacuated : ∀ live, ∀ d ∈ (planEvacuations loads nodes live (initialLoad loads live, [])).2,
        PlannedFrom loads d := by
      intro live
      rw [planEvacuations]
      by_cases hdead : (nodes.filter fun node => node.status ≠ .Live).map MetaNodeInfo.nodeId = []
      · rw [if_pos hdead]
        exact fun d hd => absurd hd List.not_mem_nil
      · rw [if_neg hdead]
        exact plannedFrom_partitions (fun _ hx => hx) fun d hd => absurd hd List.not_mem_nil
    by_cases hbudget : (planEvacuations loads nodes (nodes.filter fun node => node.status = .Live)
        (initialLoad loads (nodes.filter fun node => node.status = .Live), [])).2.length
          < cfg.maxConcurrentMigrations
    · rw [if_pos hbudget] at hd
      exact plannedFrom_balance (fun p hp => (List.mem_insertionSort _).mp hp) (hevacuated _) d hd
    · rw [if_neg hbudget] at hd
      exact hevacuated _ d hd

end Epoch.Pd
