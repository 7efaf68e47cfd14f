import Epoch.Lib.Run
import Epoch.Meta.Raft.Entry

/-!
# A node: many groups over one engine (`raft/mod.rs`)

The groups of a node share one engine.  A step of the node is one committed entry of one running
group, or one half of the loop body of `reconcile_splits`: starting the child a pending record
names, and clearing that record.  The two halves are separate steps because entries of any group
may be committed between them.

The deleter has no step of its own, since it removes queue entries by proposing `StoreOps` entries.
An entry that errs commits nothing and leaves the node as it is.
-/

namespace Epoch

/-! ## The node -/

/-- Without a stored range, a machine starts over its bootstrap range. -/
lemma Machine.new_range {store : MetaStore} {g : UInt64} {bootstrap : PartitionRange}
    {m : Machine}
    (h : Machine.new store g bootstrap = .ok m) (hnone : store.get .Applied (rangeKey g) = none) :
    m.group = g ∧ m.range = bootstrap := by
  simp only [Machine.new, readBookkeeping, hnone, Except.ok.injEq] at h
  rw [← h]
  exact ⟨rfl, rfl⟩

/-- The engine and the running groups, each under its own id. -/
structure Node where
  store : MetaStore
  machines : UInt64 → Option Machine
  group_eq : ∀ g m, machines g = some m → m.group = g

inductive NodeStep
  | apply (group : UInt64) (entry : Entry) (last : Bool)
  | startChild (parent : UInt64)
  | clearPending (parent : UInt64)
deriving DecidableEq

namespace Node

/-- A node that runs no group. -/
def idle (store : MetaStore) : Node := ⟨store, fun _ => none, fun _ _ h => by cases h⟩

/-- The node with machine `m` running, over the given engine. -/
def put (n : Node) (store : MetaStore) (m : Machine) : Node where
  store := store
  machines g := if g = m.group then some m else n.machines g
  group_eq g m' h := by
    split_ifs at h with hg
    · rw [← Option.some.inj h, hg]
    · exact n.group_eq g m' h

/-- A node that runs one group. -/
def running (store : MetaStore) (m : Machine) : Node := (idle store).put store m

/-- The node after a group has moved to machine `m` by committing the batch `ops` of `entry`. -/
def commit (n : Node) (m : Machine) (entry : Entry) (ops : List StoreOp) : Node :=
  n.put (n.store.applyBatch ops) (m.regauge (n.store.applyBatch ops) entry ops)

@[simp] lemma commit_store (n : Node) (m : Machine) (entry : Entry) (ops : List StoreOp) :
    (n.commit m entry ops).store = n.store.applyBatch ops := rfl

lemma commit_machines (n : Node) (m : Machine) (entry : Entry) (ops : List StoreOp) (g : UInt64) :
    (n.commit m entry ops).machines g
      = if g = m.group then some (m.regauge (n.store.applyBatch ops) entry ops)
        else n.machines g := by
  simp [commit, put]

/-- The child that a pending record of `parent` makes the node start. -/
def childOf (n : Node) (parent : UInt64) : Option Machine :=
  if (n.machines parent).isNone then none
  else match readPendingSplit n.store parent with
    | .error _ => none
    | .ok none => none
    | .ok (some pending) =>
      if (n.machines pending.childGroup).isSome then none
      else (Machine.new n.store pending.childGroup pending.childRange).toOption

def step (blake3 : Bytes → BitVec 256) (n : Node) : NodeStep → Node
  | .apply group entry last =>
    match n.machines group with
    | none => n
    | some m =>
      match Machine.applyEntry blake3 (n.store, m) entry last with
      | .error _ => n
      | .ok ((store, m'), _) => n.put store m'
  | .startChild parent =>
    match n.childOf parent with
    | none => n
    | some m => n.put n.store m
  | .clearPending parent =>
    if (n.machines parent).isNone then n
    else { n with store := clearPendingSplit n.store parent }

variable {n : Node}

variable {m : Machine} {parent g parent' : UInt64} {store : MetaStore} {pending : PendingSplit}

lemma childOf_eq_some (h : n.childOf parent = some m) :
    ∃ pending, readPendingSplit n.store parent = .ok (some pending)
      ∧ n.machines pending.childGroup = none
      ∧ Machine.new n.store pending.childGroup pending.childRange = .ok m := by
  unfold childOf at h
  split_ifs at h with hp
  cases hr : readPendingSplit n.store parent with
  | error e => simp [hr] at h
  | ok o =>
    cases o with
    | none => simp [hr] at h
    | some pending =>
      simp only [hr] at h
      split_ifs at h with hc
      cases hn : Machine.new n.store pending.childGroup pending.childRange with
      | error e => simp [hn, Except.toOption] at h
      | ok m' =>
        simp only [hn, Except.toOption, Option.some.injEq] at h
        subst h
        exact ⟨pending, rfl, by simpa using hc, hn⟩

/-- `parent` has a pending record whose child is not running yet. -/
def Awaits (n : Node) (parent : UInt64) (pending : PendingSplit) : Prop :=
  readPendingSplit n.store parent = .ok (some pending) ∧ n.machines pending.childGroup = none

/-- The machines after one has been started or replaced. -/
lemma put_eq_some {m₁ : Machine} (h : (n.put store m).machines g = some m₁) :
    g = m.group ∧ m₁ = m ∨ g ≠ m.group ∧ n.machines g = some m₁ := by
  simp only [put] at h
  split_ifs at h with heq
  · exact Or.inl ⟨heq, (Option.some.inj h).symm⟩
  · exact Or.inr ⟨heq, h⟩

lemma put_eq_none (h : (n.put store m).machines g = none) : g ≠ m.group ∧ n.machines g = none := by
  simp only [put] at h
  split_ifs at h with heq
  exact ⟨heq, h⟩

/-- Once a child runs, its parent no longer awaits it. -/
lemma Awaits.of_start {pending' : PendingSplit}
    (hread : readPendingSplit n.store parent = .ok (some pending))
    (hgroup : m.group = pending.childGroup) (h : (n.put n.store m).Awaits parent' pending') :
    parent' ≠ parent ∧ n.Awaits parent' pending' := by
  obtain ⟨hread', hnone⟩ := h
  refine ⟨?_, hread', (put_eq_none hnone).2⟩
  rintro rfl
  have heq : pending = pending' := by
    have hsame := hread.symm.trans hread'
    simpa using hsame
  exact (put_eq_none hnone).1 (by rw [hgroup, heq])

/-- Clearing a pending record deletes that record and nothing else. -/
lemma get_clearPendingSplit (store : MetaStore) (parent g : UInt64) (s : UInt8) :
    MetaStore.get (clearPendingSplit store parent) .Applied (bookkeepingKey g s)
      = if g = parent ∧ s = 0x70 then none else store.get .Applied (bookkeepingKey g s) := by
  rw [MetaStore.get, clearPendingSplit, KvStore.applyBatch_cf]
  simp [WriteOp.delete, OrdMap.writeAll_cons, pendingSplitKey, MetaStore.get, eq_comm (a := g),
    eq_comm (a := s)]

lemma get_clearPendingSplit_of_ne (store : MetaStore) (parent : UInt64) {c : MetaCf}
    (hc : c ≠ .Applied) (key : Bytes) :
    MetaStore.get (clearPendingSplit store parent) c key = store.get c key := by
  rw [MetaStore.get, clearPendingSplit,
    KvStore.applyBatch_of_on_eq_nil (by simp [WriteOp.delete, Ne.symm hc])]
  rfl

lemma Awaits.of_clear
    (h : Awaits { n with store := clearPendingSplit n.store parent } parent' pending) :
    n.Awaits parent' pending := by
  obtain ⟨hread, hnone⟩ := h
  refine ⟨?_, hnone⟩
  have hget := get_clearPendingSplit n.store parent parent' 0x70
  by_cases heq : parent' = parent
  · subst heq
    simp [readPendingSplit, readBookkeeping, pendingSplitKey, hget] at hread
  · rw [if_neg (by simp [heq])] at hget
    rw [← readPendingSplit_congr hget]
    exact hread

/-- **What a step of the node can do.** -/
theorem step_cases (blake3 : Bytes → BitVec 256) (n : Node) (a : NodeStep) :
    (n.step blake3 a = n ∧ ∀ g entry last m, a = .apply g entry last → n.machines g = some m →
        ∃ e, m.entryOps blake3 n.store entry = .error e)
      ∨ (∃ g entry last m ops response m', a = .apply g entry last ∧ n.machines g = some m
          ∧ m.entryOps blake3 n.store entry = .ok (ops, response, m')
          ∧ n.step blake3 a = n.commit m' entry (ops ++ m'.appliedShare entry last))
      ∨ (∃ parent pending m, a = .startChild parent
          ∧ readPendingSplit n.store parent = .ok (some pending)
          ∧ n.machines pending.childGroup = none
          ∧ Machine.new n.store pending.childGroup pending.childRange = .ok m
          ∧ n.step blake3 a = n.put n.store m)
      ∨ ∃ parent, a = .clearPending parent
          ∧ n.step blake3 a = { n with store := clearPendingSplit n.store parent } := by
  cases a with
  | apply g entry last =>
    cases hm : n.machines g with
    | none =>
      refine Or.inl ⟨by simp [step, hm], fun g' entry' last' m heq hm' => ?_⟩
      cases heq
      rw [hm] at hm'
      cases hm'
    | some m =>
      cases he : m.entryOps blake3 n.store entry with
      | error e =>
        refine Or.inl ⟨by simp [step, hm, Machine.applyEntry, he],
          fun g' entry' last' m₁ heq hm₁ => ?_⟩
        cases heq
        obtain rfl := Option.some.inj (hm.symm.trans hm₁)
        exact ⟨e, he⟩
      | ok r =>
        obtain ⟨ops, response, m'⟩ := r
        exact Or.inr (Or.inl ⟨g, entry, last, m, ops, response, m', rfl, hm, he,
          by simp [step, hm, Machine.applyEntry, he, commit]⟩)
  | startChild parent =>
    cases hc : n.childOf parent with
    | none => exact Or.inl ⟨by simp [step, hc], fun _ _ _ _ h => by cases h⟩
    | some m =>
      obtain ⟨pending, hr, hnone, hnew⟩ := childOf_eq_some hc
      exact Or.inr (Or.inr (Or.inl ⟨parent, pending, m, rfl, hr, hnone, hnew,
        by simp only [step, hc]⟩))
  | clearPending parent =>
    by_cases hp : (n.machines parent).isNone
    · exact Or.inl ⟨by simp [step, hp], fun _ _ _ _ h => by cases h⟩
    · exact Or.inr (Or.inr (Or.inr ⟨parent, rfl, by simp [step, hp]⟩))

end Node

/-- The machine of a fresh group 1 over the whole namespace. -/
def demoMachine (ns : Namespace) : Machine := ⟨1, .full ns, ⟨0, 0, 0, 0⟩, 0, 0, 0⟩

/-- A step of the fresh group that commits one entry. -/
def demoApply (e : MetaEntry) : NodeStep := .apply 1 ⟨⟨1, 1, 1⟩, .Normal e⟩ true

/-- A Split of the fresh group at `key`, towards group 2. -/
def demoSplit (key : Bytes) : NodeStep := demoApply (.Split ⟨2, 1, key, [], 0, 1⟩)

end Epoch
