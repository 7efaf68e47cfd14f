import Epoch.Pd.Plan

/-!
# The operator controller (`epoch-pd/src/meta_sched/operator.rs`)

At most one operation per partition is in flight, and at most `max_concurrent_migrations` of them are
migrations.  `admitOps` takes the decisions of one sweep, migrations by priority and then splits, and registers
those it lets start; `complete` frees a slot.

`Booked c ops` says that exactly the operations `ops`, one per partition, are registered.  An empty controller
books what it admits (`booked_admitOps`), and it admits an operation for every partition that is planned
(`admitted_of_planned`).
-/

namespace Epoch.Pd

inductive OpKind
  | Split
  | Migrate (source target : NodeId)
deriving DecidableEq

inductive OpPriority
  | Split
  | Balance
  | Evacuate
deriving DecidableEq

def OpPriority.rank : OpPriority → ℕ
  | .Split => 0
  | .Balance => 1
  | .Evacuate => 2

structure PartitionOp where
  partitionId : PartitionId
  kind : OpKind
  originEpoch : UInt64
  priority : OpPriority
deriving DecidableEq

def PartitionOp.isMigrate (op : PartitionOp) : Bool :=
  match op.kind with
  | .Migrate _ _ => true
  | .Split => false

def migratePriority : MigrateReason → OpPriority
  | .Evacuate => .Evacuate
  | .Balance => .Balance

def MigrateDecision.op (m : MigrateDecision) : PartitionOp :=
  ⟨m.partitionId, .Migrate m.source m.target, m.epoch, migratePriority m.reason⟩

def SplitDecision.op (s : SplitDecision) : PartitionOp :=
  ⟨s.parentId, .Split, s.epoch, .Split⟩

structure OperatorController where
  slots : OrdMap PartitionId PartitionOp
  maxConcurrentMigrations : ℕ

namespace OperatorController

def new (maxConcurrentMigrations : ℕ) : OperatorController := ⟨.empty, maxConcurrentMigrations⟩

variable (c : OperatorController)

/-- The operations in flight, by partition id. -/
def running : List PartitionOp := c.slots.toList.map Prod.snd

def runningMigrations : ℕ := (c.running.filter PartitionOp.isMigrate).length

def isRunning (partitionId : PartitionId) : Bool := (c.slots.get partitionId).isSome

def register (op : PartitionOp) : OperatorController :=
  { c with slots := c.slots.insert op.partitionId op }

def complete (partitionId : PartitionId) : OperatorController :=
  { c with slots := c.slots.erase partitionId }

/-- The partition's route epoch is not the one that the operation was admitted at. -/
def isStale (partitionId : PartitionId) (currentEpoch : UInt64) : Bool :=
  (c.slots.get partitionId).any fun op => op.originEpoch ≠ currentEpoch

end OperatorController

open OperatorController

/-- One migration decision: its partition must be free and the budget not used up. -/
def admitMigration (acc : OperatorController × List PartitionOp) (m : MigrateDecision) :
    OperatorController × List PartitionOp :=
  if acc.1.isRunning m.partitionId then acc
  else if acc.1.maxConcurrentMigrations ≤ acc.1.runningMigrations then acc
  else (acc.1.register m.op, acc.2 ++ [m.op])

/-- One split decision: its partition must be free. -/
def admitSplit (acc : OperatorController × List PartitionOp) (s : SplitDecision) :
    OperatorController × List PartitionOp :=
  if acc.1.isRunning s.parentId then acc
  else (acc.1.register s.op, acc.2 ++ [s.op])

/-- Evacuations before balancing moves, then by partition id. -/
def migrationOrder (migrations : List MigrateDecision) : List MigrateDecision :=
  migrations.insertionSort fun a b =>
    toLex ((migratePriority b.reason).rank, a.partitionId)
      ≤ toLex ((migratePriority a.reason).rank, b.partitionId)

/-- `admit`. -/
def OperatorController.admitOps (c : OperatorController) (splits : List SplitDecision)
    (migrations : List MigrateDecision) : OperatorController × List PartitionOp :=
  splits.foldl admitSplit ((migrationOrder migrations).foldl admitMigration (c, []))

/-! ## What is registered -/

/-- Exactly these operations are registered, one per partition. -/
structure Booked (c : OperatorController) (ops : List PartitionOp) : Prop where
  nodup : (ops.map PartitionOp.partitionId).Nodup
  get_iff : ∀ id op, c.slots.get id = some op ↔ op ∈ ops ∧ op.partitionId = id

namespace Booked

variable {c : OperatorController} {ops : List PartitionOp} {op : PartitionOp}

lemma mem_running_iff (h : Booked c ops) : op ∈ c.running ↔ op ∈ ops := by
  constructor
  · intro hop
    obtain ⟨⟨id, op'⟩, hmem, rfl⟩ := List.mem_map.mp hop
    exact ((h.get_iff id op').mp ((OrdMap.mem_toList_iff _ _ _).mp hmem)).1
  · intro hop
    have hget := (h.get_iff op.partitionId op).mpr ⟨hop, rfl⟩
    exact List.mem_map.mpr ⟨(op.partitionId, op), (OrdMap.mem_toList_iff _ _ _).mpr hget, rfl⟩

lemma nodup_running (h : Booked c ops) : c.running.Nodup := by
  have hkeys : c.slots.toList.map Prod.fst = c.running.map PartitionOp.partitionId := by
    rw [running, List.map_map]
    refine List.map_congr_left fun e he => ?_
    exact ((h.get_iff e.1 e.2).mp ((OrdMap.mem_toList_iff _ _ _).mp he)).2.symm
  exact (hkeys ▸ c.slots.nodup_keys).of_map

lemma running_perm (h : Booked c ops) : c.running.Perm ops :=
  (List.perm_ext_iff_of_nodup h.nodup_running h.nodup.of_map).mpr fun _ => h.mem_running_iff

lemma runningMigrations_eq (h : Booked c ops) :
    c.runningMigrations = (ops.filter PartitionOp.isMigrate).length :=
  (h.running_perm.filter _).length_eq

lemma isRunning_iff (h : Booked c ops) {id : PartitionId} :
    c.isRunning id = true ↔ id ∈ ops.map PartitionOp.partitionId := by
  rw [isRunning, Option.isSome_iff_exists, List.mem_map]
  exact exists_congr fun op => h.get_iff id op

lemma register (h : Booked c ops) (hfree : c.isRunning op.partitionId = false) :
    Booked (c.register op) (ops ++ [op]) := by
  have hnot : op.partitionId ∉ ops.map PartitionOp.partitionId := fun hmem => by
    rw [h.isRunning_iff.mpr hmem] at hfree
    cases hfree
  constructor
  · rw [List.map_append, List.map_singleton, List.nodup_append]
    refine ⟨h.nodup, List.nodup_singleton _, ?_⟩
    intro a ha b hb hab
    rw [List.mem_singleton.mp hb] at hab
    exact hnot (hab ▸ ha)
  · intro id op'
    rw [OperatorController.register, OrdMap.get_insert, List.mem_append, List.mem_singleton]
    by_cases hid : op.partitionId = id
    · rw [if_pos hid, Option.some.injEq]
      constructor
      · rintro rfl
        exact ⟨Or.inr rfl, hid⟩
      · rintro ⟨hmem | rfl, hid'⟩
        · exact absurd (List.mem_map.mpr ⟨op', hmem, hid'.trans hid.symm⟩) hnot
        · rfl
    · rw [if_neg hid, h.get_iff]
      constructor
      · exact fun hop => ⟨Or.inl hop.1, hop.2⟩
      · rintro ⟨hmem | rfl, hid'⟩
        · exact ⟨hmem, hid'⟩
        · exact absurd hid' hid

/-- Freeing the slot of one operation leaves the others. -/
lemma complete {before after : List PartitionOp} (h : Booked c (before ++ op :: after)) :
    Booked (c.complete op.partitionId) (before ++ after) := by
  have hsub : (before ++ after).Sublist (before ++ op :: after) :=
    List.Sublist.append_left (List.sublist_cons_self op after) before
  have hnot : op.partitionId ∉ (before ++ after).map PartitionOp.partitionId := by
    have hmiddle := h.nodup
    rw [List.map_append, List.map_cons, List.nodup_middle, List.nodup_cons] at hmiddle
    rw [List.map_append]
    exact hmiddle.1
  constructor
  · exact h.nodup.sublist (hsub.map _)
  · intro id op'
    rw [OperatorController.complete, OrdMap.get_erase]
    by_cases hid : op.partitionId = id
    · rw [if_pos hid]
      constructor
      · exact fun hnone => absurd hnone (by simp)
      · rintro ⟨hmem, hid'⟩
        exact absurd (List.mem_map.mpr ⟨op', hmem, hid'.trans hid.symm⟩) hnot
    · rw [if_neg hid, h.get_iff]
      refine and_congr_left fun hid' => ?_
      have hne : op' ≠ op := fun heq => hid (heq ▸ hid')
      simp [hne]

end Booked

lemma booked_empty {c : OperatorController} (h : c.slots = .empty) : Booked c [] :=
  ⟨List.nodup_nil, fun id op => by simp [h]⟩

/-! ## Admission -/

section Admit

variable {acc : OperatorController × List PartitionOp} {max : ℕ}

lemma booked_admitMigration (h : Booked acc.1 acc.2) (m : MigrateDecision) :
    Booked (admitMigration acc m).1 (admitMigration acc m).2 := by
  rw [admitMigration]
  by_cases hrun : acc.1.isRunning m.partitionId = true
  · rw [if_pos hrun]
    exact h
  · rw [if_neg hrun]
    by_cases hbudget : acc.1.maxConcurrentMigrations ≤ acc.1.runningMigrations
    · rw [if_pos hbudget]
      exact h
    · rw [if_neg hbudget]
      exact h.register (Bool.eq_false_iff.mpr hrun)

lemma booked_admitSplit (h : Booked acc.1 acc.2) (s : SplitDecision) :
    Booked (admitSplit acc s).1 (admitSplit acc s).2 := by
  rw [admitSplit]
  by_cases hrun : acc.1.isRunning s.parentId = true
  · rw [if_pos hrun]
    exact h
  · rw [if_neg hrun]
    exact h.register (Bool.eq_false_iff.mpr hrun)

variable {c : OperatorController} {op : PartitionOp} {splits : List SplitDecision}
  {migrations : List MigrateDecision}

lemma booked_admitOps (h : c.slots = .empty) (splits : List SplitDecision)
    (migrations : List MigrateDecision) :
    Booked (c.admitOps splits migrations).1 (c.admitOps splits migrations).2 := by
  have hmigrations : ∀ (l : List MigrateDecision) (acc : OperatorController × List PartitionOp),
      Booked acc.1 acc.2 → Booked (l.foldl admitMigration acc).1 (l.foldl admitMigration acc).2 := by
    intro l
    induction l with
    | nil => exact fun _ hacc => hacc
    | cons m l ih => exact fun _ hacc => ih _ (booked_admitMigration hacc m)
  have hsplits : ∀ (l : List SplitDecision) (acc : OperatorController × List PartitionOp),
      Booked acc.1 acc.2 → Booked (l.foldl admitSplit acc).1 (l.foldl admitSplit acc).2 := by
    intro l
    induction l with
    | nil => exact fun _ hacc => hacc
    | cons s l ih => exact fun _ hacc => ih _ (booked_admitSplit hacc s)
  exact hsplits _ _ (hmigrations _ _ (booked_empty h))

/-! Where an admitted operation comes from. -/

lemma mem_admitMigration {m : MigrateDecision} (h : op ∈ (admitMigration acc m).2) :
    op ∈ acc.2 ∨ op = m.op := by
  rw [admitMigration] at h
  split_ifs at h
  · exact Or.inl h
  · exact Or.inl h
  · exact (List.mem_append.mp h).imp_right List.mem_singleton.mp

lemma mem_admitSplit {s : SplitDecision} (h : op ∈ (admitSplit acc s).2) :
    op ∈ acc.2 ∨ op = s.op := by
  rw [admitSplit] at h
  split_ifs at h
  · exact Or.inl h
  · exact (List.mem_append.mp h).imp_right List.mem_singleton.mp

lemma mem_admitOps (h : op ∈ (c.admitOps splits migrations).2) :
    (∃ m ∈ migrations, op = m.op) ∨ ∃ s ∈ splits, op = s.op := by
  have hmigrations : ∀ (l : List MigrateDecision) (acc : OperatorController × List PartitionOp),
      op ∈ (l.foldl admitMigration acc).2 → op ∈ acc.2 ∨ ∃ m ∈ l, op = m.op := by
    intro l
    induction l with
    | nil => exact fun _ hop => Or.inl hop
    | cons m l ih =>
      intro acc hop
      rcases ih _ hop with hop | ⟨m', hm', rfl⟩
      · exact (mem_admitMigration hop).imp_right fun heq => ⟨m, List.mem_cons_self, heq⟩
      · exact Or.inr ⟨m', List.mem_cons_of_mem m hm', rfl⟩
  have hsplits : ∀ (l : List SplitDecision) (acc : OperatorController × List PartitionOp),
      op ∈ (l.foldl admitSplit acc).2 → op ∈ acc.2 ∨ ∃ s ∈ l, op = s.op := by
    intro l
    induction l with
    | nil => exact fun _ hop => Or.inl hop
    | cons s l ih =>
      intro acc hop
      rcases ih _ hop with hop | ⟨s', hs', rfl⟩
      · exact (mem_admitSplit hop).imp_right fun heq => ⟨s, List.mem_cons_self, heq⟩
      · exact Or.inr ⟨s', List.mem_cons_of_mem s hs', rfl⟩
  rcases hsplits _ _ h with hop | hop
  · rcases hmigrations _ _ hop with hnil | ⟨m, hm, rfl⟩
    · exact absurd hnil List.not_mem_nil
    · exact Or.inl ⟨m, (List.mem_insertionSort _).mp hm, rfl⟩
  · exact Or.inr hop

/-! A planned partition is admitted. -/

/-- Some operation of the list is for the partition. -/
def Covers (ops : List PartitionOp) (id : PartitionId) : Prop := ∃ op ∈ ops, op.partitionId = id

lemma covers_of_isRunning (h : Booked acc.1 acc.2) {id : PartitionId}
    (hrun : acc.1.isRunning id = true) : Covers acc.2 id :=
  List.mem_map.mp (h.isRunning_iff.mp hrun)

lemma Covers.admitSplit {id : PartitionId} (h : Covers acc.2 id) (s : SplitDecision) :
    Covers (admitSplit acc s).2 id := by
  obtain ⟨op, hop, hid⟩ := h
  refine ⟨op, ?_, hid⟩
  rw [Pd.admitSplit]
  split_ifs
  · exact hop
  · exact List.mem_append_left _ hop

lemma covers_splits (h : Booked acc.1 acc.2) :
    (∀ id, Covers acc.2 id → Covers (splits.foldl admitSplit acc).2 id)
      ∧ ∀ s ∈ splits, Covers (splits.foldl admitSplit acc).2 s.parentId := by
  induction splits generalizing acc with
  | nil => exact ⟨fun _ hid => hid, fun _ hs => absurd hs List.not_mem_nil⟩
  | cons s splits ih =>
    obtain ⟨hkeep, hrest⟩ := ih (booked_admitSplit h s)
    refine ⟨fun id hid => hkeep id (hid.admitSplit s), fun s' hs' => ?_⟩
    rcases List.mem_cons.mp hs' with rfl | hs'
    · refine hkeep _ ?_
      by_cases hrun : acc.1.isRunning s'.parentId = true
      · rw [admitSplit, if_pos hrun]
        exact covers_of_isRunning h hrun
      · rw [admitSplit, if_neg hrun]
        exact ⟨s'.op, List.mem_append_right _ List.mem_cons_self, rfl⟩
    · exact hrest s' hs'

/-- With room in the budget for all of them every migration's partition is admitted. -/
lemma covers_migrations (h : Booked acc.1 acc.2)
    (hroom : acc.2.length + migrations.length ≤ acc.1.maxConcurrentMigrations) :
    (∀ id, Covers acc.2 id → Covers (migrations.foldl admitMigration acc).2 id)
      ∧ ∀ m ∈ migrations, Covers (migrations.foldl admitMigration acc).2 m.partitionId := by
  induction migrations generalizing acc with
  | nil => exact ⟨fun _ hid => hid, fun _ hm => absurd hm List.not_mem_nil⟩
  | cons m migrations ih =>
    rw [List.length_cons] at hroom
    by_cases hrun : acc.1.isRunning m.partitionId = true
    · have hstep : admitMigration acc m = acc := by rw [admitMigration, if_pos hrun]
      rw [List.foldl_cons, hstep]
      obtain ⟨hkeep, hrest⟩ := ih h (by omega)
      refine ⟨hkeep, fun m' hm' => ?_⟩
      rcases List.mem_cons.mp hm' with rfl | hm'
      · exact hkeep _ (covers_of_isRunning h hrun)
      · exact hrest m' hm'
    · have hbudget : ¬acc.1.maxConcurrentMigrations ≤ acc.1.runningMigrations := by
        have hle := List.length_filter_le PartitionOp.isMigrate acc.2
        rw [← h.runningMigrations_eq] at hle
        omega
      have hstep : admitMigration acc m = (acc.1.register m.op, acc.2 ++ [m.op]) := by
        rw [admitMigration, if_neg hrun, if_neg hbudget]
      have hbooked := booked_admitMigration h m
      rw [List.foldl_cons]
      rw [hstep] at hbooked ⊢
      obtain ⟨hkeep, hrest⟩ := ih hbooked (by simp [OperatorController.register]; omega)
      refine ⟨fun id hid => hkeep id ?_, fun m' hm' => ?_⟩
      · obtain ⟨op, hop, hid⟩ := hid
        exact ⟨op, List.mem_append_left _ hop, hid⟩
      · rcases List.mem_cons.mp hm' with rfl | hm'
        · exact hkeep _ ⟨m'.op, List.mem_append_right _ List.mem_cons_self, rfl⟩
        · exact hrest m' hm'

/-- An empty controller admits an operation for every planned partition, if the plan keeps to the budget. -/
theorem admitted_of_planned (h : c.slots = .empty)
    (hmax : migrations.length ≤ c.maxConcurrentMigrations) :
    (∀ m ∈ migrations, Covers (c.admitOps splits migrations).2 m.partitionId)
      ∧ ∀ s ∈ splits, Covers (c.admitOps splits migrations).2 s.parentId := by
  have hlength : (migrationOrder migrations).length = migrations.length :=
    List.length_insertionSort _ _
  obtain ⟨-, hmigrations⟩ := @covers_migrations (c, []) (migrationOrder migrations) (booked_empty h)
    (by simpa [hlength] using hmax)
  have hbooked : Booked ((migrationOrder migrations).foldl admitMigration (c, [])).1
      ((migrationOrder migrations).foldl admitMigration (c, [])).2 := booked_admitOps h [] migrations
  obtain ⟨hkeep, hsplits⟩ := @covers_splits _ splits hbooked
  refine ⟨fun m hm => hkeep _ (hmigrations m ?_), hsplits⟩
  exact (List.mem_insertionSort _).mpr hm

end Admit

end Epoch.Pd
