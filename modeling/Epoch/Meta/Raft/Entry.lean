import Epoch.Meta.Footprint
import Epoch.Meta.Hier.Records
import Epoch.Meta.Raft.StateMachine

/-!
# What an entry does

`Effect` lists what each kind of entry can do to its machine, with the batch it commits, and every
successful `entryOps` is one of its cases (`entryOps_effect`).  Proofs about the machine go through
these cases.  What they have in common: no entry changes the group or the tag of its machine, and
an entry other than a split only writes the records its group updates routinely
(`Effect.routine`).
-/

namespace Epoch

/-- A `StoreOps` entry only carries data. -/
def Entry.dataOnly (entry : Entry) : Bool :=
  match entry.payload with
  | .Normal (.StoreOps batch) => batch.all fun op => op.cf ≠ .Applied
  | _ => true

/-- The entry carries raw store ops. -/
def Entry.isRaw (entry : Entry) : Bool :=
  match entry.payload with
  | .Normal (.StoreOps _) => true
  | _ => false

def Entry.hierOp (entry : Entry) : Option HierOp :=
  match entry.payload with
  | .Normal (.Hier op) => some op
  | _ => none

lemma readPendingSplit_congr {store store' : MetaStore} {g : UInt64}
    (h : store.get .Applied (pendingSplitKey g) = store'.get .Applied (pendingSplitKey g)) :
    readPendingSplit store g = readPendingSplit store' g := by
  simp only [readPendingSplit, readBookkeeping, h]

namespace Machine

variable {blake3 : Bytes → BitVec 256} {store : MetaStore} {m m' : Machine} {entry : Entry}
  {ops : List StoreOp} {response : MetaResponse}

/-- The batch of an entry and the machine after it. -/
inductive Effect (blake3 : Bytes → BitVec 256) (store : MetaStore) (m : Machine) (entry : Entry) :
    List StoreOp → Machine → Prop
  | blank (hp : entry.payload = .Blank) : Effect blake3 store m entry [] m
  | storeOps {batch : List StoreOp} (hp : entry.payload = .Normal (.StoreOps batch)) :
      Effect blake3 store m entry batch m
  | flat {op : FlatOp} {out : ApplyOutcome} (hp : entry.payload = .Normal (.Flat op))
      (ha : Flat.apply blake3 store op m.delqNext = .ok out) :
      Effect blake3 store m entry
        (out.ops ++ [(m.afterFlat out).delqSeqPut, (m.afterFlat out).guardPut]) (m.afterFlat out)
  | hier {op : HierOp} {out : ApplyOutcome} {ino' : InoAllocator}
      (hp : entry.payload = .Normal (.Hier op))
      (ha : Hier.apply store op m.delqNext ⟨m.inoTag, m.inoNext⟩ = .ok (out, ino')) :
      Effect blake3 store m entry
        (out.ops ++ [(m.afterHier out ino').delqSeqPut, (m.afterHier out ino').inoSeqPut,
          (m.afterHier out ino').guardPut]) (m.afterHier out ino')
  | idleSplit {op : SplitOp} (hp : entry.payload = .Normal (.Split op))
      (hs : m.range.split (op.atBucket, op.atRoutingKey) = none) :
      Effect blake3 store m entry [] m
  | split {op : SplitOp} {left right : PartitionRange} (hp : entry.payload = .Normal (.Split op))
      (hs : m.range.split (op.atBucket, op.atRoutingKey) = some (left, right)) :
      Effect blake3 store m entry (m.splitRecords op left right) { m with range := left }
  | membership {ms : Membership} (hp : entry.payload = .Membership ms) :
      Effect blake3 store m entry
        [WriteOp.put .Applied (membershipKey m.group) (.Members ⟨some entry.logId, ms⟩)] m

/-- **Every successful entry is one of these cases.** -/
theorem entryOps_effect (h : m.entryOps blake3 store entry = .ok (ops, response, m')) :
    Effect blake3 store m entry ops m' := by
  cases hp : entry.payload with
  | Blank =>
    simp only [entryOps, hp, Except.ok.injEq, Prod.mk.injEq] at h
    obtain ⟨rfl, -, rfl⟩ := h
    exact .blank hp
  | Membership ms =>
    simp only [entryOps, hp, Except.ok.injEq, Prod.mk.injEq] at h
    obtain ⟨rfl, -, rfl⟩ := h
    exact .membership hp
  | Normal e =>
    cases e with
    | StoreOps batch =>
      simp only [entryOps, hp, Except.ok.injEq, Prod.mk.injEq] at h
      obtain ⟨rfl, -, rfl⟩ := h
      exact .storeOps hp
    | Flat op =>
      simp only [entryOps, hp] at h
      cases ha : Flat.apply blake3 store op m.delqNext with
      | error e => simp [ha] at h
      | ok out =>
        simp only [ha, Except.ok.injEq, Prod.mk.injEq] at h
        obtain ⟨rfl, -, rfl⟩ := h
        exact .flat hp ha
    | Hier op =>
      simp only [entryOps, hp] at h
      cases ha : Hier.apply store op m.delqNext ⟨m.inoTag, m.inoNext⟩ with
      | error e => simp [ha] at h
      | ok r =>
        obtain ⟨out, ino'⟩ := r
        simp only [ha, Except.ok.injEq, Prod.mk.injEq] at h
        obtain ⟨rfl, -, rfl⟩ := h
        exact .hier hp ha
    | Split op =>
      simp only [entryOps, hp, Except.ok.injEq, Prod.mk.injEq] at h
      obtain ⟨rfl, -, rfl⟩ := h
      unfold splitOps
      cases hs : m.range.split (op.atBucket, op.atRoutingKey) with
      | none => exact .idleSplit hp hs
      | some halves => exact .split hp hs

/-- One entry of a log, flagged if it is the last of its call.  An entry that errs leaves engine and
machine as they are. -/
def step (blake3 : Bytes → BitVec 256) (s : MetaStore × Machine) (a : Entry × Bool) :
    MetaStore × Machine :=
  match applyEntry blake3 s a.1 a.2 with
  | .error _ => s
  | .ok (s', _) => s'

lemma step_cases (blake3 : Bytes → BitVec 256) (s : MetaStore × Machine) (a : Entry × Bool) :
    (step blake3 s a = s ∧ ∃ e, s.2.entryOps blake3 s.1 a.1 = .error e)
      ∨ ∃ ops m, s.2.Effect blake3 s.1 a.1 ops m
        ∧ step blake3 s a = (s.1.applyBatch (ops ++ m.appliedShare a.1 a.2),
            m.regauge (s.1.applyBatch (ops ++ m.appliedShare a.1 a.2)) a.1
              (ops ++ m.appliedShare a.1 a.2)) := by
  cases h : s.2.entryOps blake3 s.1 a.1 with
  | error e => exact Or.inl ⟨by simp [step, applyEntry, h], e, rfl⟩
  | ok r =>
    obtain ⟨ops, response, m⟩ := r
    exact Or.inr ⟨ops, m, entryOps_effect h, by simp [step, applyEntry, h]⟩

/-! ## What all entries have in common -/

/-- An entry moves the range and the counters of its machine, never its group or tag. -/
lemma Effect.group_eq (h : Effect blake3 store m entry ops m') :
    m'.group = m.group ∧ m'.inoTag = m.inoTag := by
  cases h <;> exact ⟨rfl, rfl⟩

/-- Unless it is an effective split, an entry keeps the range. -/
lemma Effect.range_eq (h : Effect blake3 store m entry ops m')
    (hsplit : ∀ op, entry.payload = .Normal (.Split op) →
      m.range.split (op.atBucket, op.atRoutingKey) = none) : m'.range = m.range := by
  cases h with
  | split hp hs => rw [hsplit _ hp] at hs; cases hs
  | _ => rfl

/-- The queue counter stays or moves on by one. -/
lemma Effect.delqNext_eq (h : Effect blake3 store m entry ops m') :
    m'.delqNext = m.delqNext ∨ m'.delqNext = m.delqNext + 1 := by
  cases h with
  | flat hp ha => exact Or.inr rfl
  | hier hp ha => exact Or.inr rfl
  | _ => exact Or.inl rfl

@[simp] lemma regauge_group : (m.regauge store entry ops).group = m.group := by
  unfold regauge; split <;> rfl

@[simp] lemma regauge_range : (m.regauge store entry ops).range = m.range := by
  unfold regauge; split <;> rfl

@[simp] lemma regauge_delqNext : (m.regauge store entry ops).delqNext = m.delqNext := by
  unfold regauge; split <;> rfl

@[simp] lemma regauge_inoNext : (m.regauge store entry ops).inoNext = m.inoNext := by
  unfold regauge; split <;> rfl

@[simp] lemma regauge_inoTag : (m.regauge store entry ops).inoTag = m.inoTag := by
  unfold regauge; split <;> rfl

@[simp] lemma on_appliedShare {c : MetaCf} (hc : c ≠ .Applied) (m : Machine) (entry : Entry)
    (last : Bool) : KvStore.on c (m.appliedShare entry last) = [] := by
  unfold appliedShare
  split_ifs
  · simp [appliedPut, WriteOp.put, Ne.symm hc]
  · rfl

/-- **Only hierarchical ops touch the directory tree**, apart from raw `StoreOps`. -/
lemma Effect.fs_share (h : Effect blake3 store m entry ops m') (hraw : entry.isRaw = false)
    (last : Bool) :
    (entry.hierOp = none ∧ KvStore.on .Fs (ops ++ m'.appliedShare entry last) = []
        ∧ m'.inoNext = m.inoNext)
      ∨ ∃ op ino', entry.hierOp = some op ∧ m'.inoNext = ino'.next
        ∧ Hier.RecordEffect store ⟨m.inoTag, m.inoNext⟩ op
            (KvStore.on .Fs (ops ++ m'.appliedShare entry last)) ino' := by
  rw [KvStore.on_append, on_appliedShare (by decide), List.append_nil]
  cases h with
  | @hier op out ino' hp ha =>
    refine Or.inr ⟨op, ino', by simp [Entry.hierOp, hp], rfl, ?_⟩
    simpa [delqSeqPut, inoSeqPut, guardPut, WriteOp.put] using Hier.apply_recordEffect ha
  | storeOps hp => simp [Entry.isRaw, hp] at hraw
  | flat hp ha =>
    refine Or.inl ⟨by simp [Entry.hierOp, hp], ?_, rfl⟩
    simp [Flat.on_eq_nil ha (c := .Fs) (by decide), delqSeqPut, guardPut, WriteOp.put]
  | blank hp => exact Or.inl ⟨by simp [Entry.hierOp, hp], rfl, rfl⟩
  | idleSplit hp hs => exact Or.inl ⟨by simp [Entry.hierOp, hp], rfl, rfl⟩
  | split hp hs => exact Or.inl ⟨by simp [Entry.hierOp, hp], rfl, rfl⟩
  | membership hp => exact Or.inl ⟨by simp [Entry.hierOp, hp], rfl, rfl⟩

/-! ## Bookkeeping writes -/

/-- The records a group updates without a split: applied, membership, queue counter, guard and inode
counter. -/
def routineSuffixes : List UInt8 := [0x61, 0x6d, 0x64, 0x69, 0x6e]

lemma on_applied_appliedShare (m : Machine) (entry : Entry) (last : Bool) :
    KvStore.on .Applied (m.appliedShare entry last)
      = if last then [(appliedKey m.group, some (.Applied entry.logId))] else [] := by
  unfold appliedShare
  split_ifs <;> rfl

/-- **Routine entries write routine records**: unless it splits, an entry touches no records but
its own group's, and neither the range, the tag, the pending split nor the snapshot record. -/
lemma Effect.routine (h : Effect blake3 store m entry ops m') (hdata : entry.dataOnly = true)
    (hsplit : ∀ op, entry.payload = .Normal (.Split op) →
      m.range.split (op.atBucket, op.atRoutingKey) = none)
    (last : Bool) {w : Bytes × Option MetaValue}
    (hw : w ∈ KvStore.on .Applied (ops ++ m'.appliedShare entry last)) :
    ∃ s ∈ routineSuffixes, w.1 = bookkeepingKey m.group s := by
  have hown : ∀ {s}, s ∈ routineSuffixes → w.1 = bookkeepingKey m.group s →
      ∃ s ∈ routineSuffixes, w.1 = bookkeepingKey m.group s := fun hs hw => ⟨_, hs, hw⟩
  rw [KvStore.on_append, List.mem_append, on_applied_appliedShare, h.group_eq.1] at hw
  rcases hw with hw | hw
  · cases h with
    | blank hp => simp at hw
    | idleSplit hp hs => simp at hw
    | split hp hs => rw [hsplit _ hp] at hs; cases hs
    | storeOps hp =>
      simp only [Entry.dataOnly, hp, List.all_eq_true, decide_eq_true_eq] at hdata
      exact absurd rfl (hdata _ (KvStore.mem_on.mp hw))
    | flat hp ha =>
      rw [KvStore.on_append, Flat.on_eq_nil ha (by decide), List.nil_append] at hw
      rcases List.mem_pair.mp hw with rfl | rfl
      · exact hown (s := 0x64) (by decide) rfl
      · exact hown (s := 0x69) (by decide) rfl
    | hier hp ha =>
      rw [KvStore.on_append, Hier.on_applied_eq_nil ha, List.nil_append] at hw
      rcases List.mem_cons.mp hw with rfl | hw
      · exact hown (s := 0x64) (by decide) rfl
      · rcases List.mem_pair.mp hw with rfl | rfl
        · exact hown (s := 0x6e) (by decide) rfl
        · exact hown (s := 0x69) (by decide) rfl
    | membership hp =>
      obtain rfl := List.mem_singleton.mp hw
      exact hown (s := 0x6d) (by decide) rfl
  · split_ifs at hw
    · obtain rfl := List.mem_singleton.mp hw
      exact hown (s := 0x61) (by decide) rfl
    · simp at hw

/-- The records that a routine entry leaves alone. -/
lemma Effect.get_applied (h : Effect blake3 store m entry ops m') (hdata : entry.dataOnly = true)
    (hsplit : ∀ op, entry.payload = .Normal (.Split op) →
      m.range.split (op.atBucket, op.atRoutingKey) = none)
    (last : Bool) {g : UInt64} {s : UInt8} (hs : g ≠ m.group ∨ s ∉ routineSuffixes) :
    MetaStore.get (store.applyBatch (ops ++ m'.appliedShare entry last)) .Applied
        (bookkeepingKey g s)
      = store.get .Applied (bookkeepingKey g s) := by
  rw [MetaStore.get, KvStore.applyBatch_cf]
  refine OrdMap.get_writeAll_of_notMem fun hmem => ?_
  obtain ⟨w, hw, hkey⟩ := List.mem_map.mp hmem
  obtain ⟨s', hs', hkey'⟩ := h.routine hdata hsplit last hw
  obtain ⟨rfl, rfl⟩ := bookkeepingKey_inj.mp (hkey.symm.trans hkey')
  rcases hs with hs | hs
  · exact hs rfl
  · exact hs hs'

/-- The records after an effective split: the applied record of a last entry, the child's seeds, and
the group's pending split and range. -/
lemma get_applied_split (store : MetaStore) (m : Machine) (entry : Entry) (op : SplitOp)
    (left right : PartitionRange) (last : Bool) (g : UInt64) (s : UInt8) :
    MetaStore.get (store.applyBatch (m.splitRecords op left right
        ++ { m with range := left }.appliedShare entry last)) .Applied (bookkeepingKey g s)
      = if last = true ∧ g = m.group ∧ s = 0x61 then some (.Applied entry.logId)
        else if g = op.childGroup ∧ s = 0x74 then some (.U32 op.childInoTag)
        else if g = op.childGroup ∧ s = 0x6e then some (.U64 0)
        else if g = op.childGroup ∧ s = 0x64 then some (.U64 0)
        else if g = m.group ∧ s = 0x70 then
          some (.Split ⟨op.childGroup, right, op.childPeers, op.bootstrapNode⟩)
        else if g = m.group ∧ s = 0x72 then some (.Range left)
        else store.get .Applied (bookkeepingKey g s) := by
  rw [MetaStore.get, KvStore.applyBatch_cf, KvStore.on_append, on_applied_appliedShare,
    OrdMap.writeAll_append]
  simp only [splitRecords, KvStore.on_cons, KvStore.on_nil, WriteOp.put, if_true,
    List.cons_append, List.nil_append, rangeKey, pendingSplitKey, delqSeqKey, inoSeqKey, inoTagKey,
    appliedKey]
  cases last <;>
    simp [OrdMap.writeAll_cons, bookkeepingKey_inj, MetaStore.get, eq_comm (a := g), eq_comm (a := s)]

/-- An entry splits its range, or does not. -/
lemma Effect.split_or (h : Effect blake3 store m entry ops m') :
    (∀ op, entry.payload = .Normal (.Split op) →
        m.range.split (op.atBucket, op.atRoutingKey) = none)
      ∨ ∃ op left right, entry.payload = .Normal (.Split op)
        ∧ m.range.split (op.atBucket, op.atRoutingKey) = some (left, right)
        ∧ ops = m.splitRecords op left right ∧ m' = { m with range := left } := by
  cases h with
  | split hp hs => exact Or.inr ⟨_, _, _, hp, hs, rfl, rfl⟩
  | idleSplit hp hs =>
    refine Or.inl fun op hp' => ?_
    rw [hp] at hp'
    injection hp' with hp'
    injection hp' with hop
    rw [← hop]
    exact hs
  | blank hp => exact Or.inl fun op hp' => by rw [hp] at hp'; cases hp'
  | storeOps hp => exact Or.inl fun op hp' => by rw [hp] at hp'; cases hp'
  | flat hp ha => exact Or.inl fun op hp' => by rw [hp] at hp'; cases hp'
  | hier hp ha => exact Or.inl fun op hp' => by rw [hp] at hp'; cases hp'
  | membership hp => exact Or.inl fun op hp' => by rw [hp] at hp'; cases hp'

/-- The range of a machine never grows. -/
lemma Effect.narrows (h : Effect blake3 store m entry ops m') {b : BucketId} {k : Bytes}
    (hb : m'.range.containsCoord b k = true) : m.range.containsCoord b k = true := by
  rcases h.split_or with hsplit | ⟨op, left, right, -, hs, -, rfl⟩
  · rwa [h.range_eq hsplit] at hb
  · exact ((PartitionRange.split_containsCoord hs b k).1.mp hb).1

/-- Nobody writes another group's range. -/
lemma Effect.get_rangeKey (h : Effect blake3 store m entry ops m') (hdata : entry.dataOnly = true)
    (last : Bool) {g : UInt64} (hg : g ≠ m.group) :
    MetaStore.get (store.applyBatch (ops ++ m'.appliedShare entry last)) .Applied (rangeKey g)
      = store.get .Applied (rangeKey g) := by
  rcases h.split_or with hsplit | ⟨op, left, right, -, -, rfl, rfl⟩
  · exact h.get_applied hdata hsplit last (Or.inl hg)
  · rw [rangeKey, get_applied_split]
    simp [hg]

/-- A pending record after an entry was there before, or is the entry's own. -/
lemma Effect.pending_cases (h : Effect blake3 store m entry ops m') (hdata : entry.dataOnly = true)
    {last : Bool} {parent : UInt64} {pending : PendingSplit}
    (hread : readPendingSplit (store.applyBatch (ops ++ m'.appliedShare entry last)) parent
      = .ok (some pending)) :
    readPendingSplit store parent = .ok (some pending)
      ∨ parent = m.group ∧ ∃ op left, entry.payload = .Normal (.Split op)
        ∧ m.range.split (op.atBucket, op.atRoutingKey) = some (left, pending.childRange)
        ∧ pending.childGroup = op.childGroup ∧ m' = { m with range := left } := by
  rcases h.split_or with hsplit | ⟨op, left, right, hp, hs, rfl, rfl⟩
  · rw [← readPendingSplit_congr (h.get_applied hdata hsplit last (Or.inr (by decide)))]
    exact Or.inl hread
  · have hget := get_applied_split store m entry op left right last parent 0x70
    by_cases hg : parent = m.group
    · refine Or.inr ⟨hg, op, left, hp, ?_⟩
      simp only [hg] at hget hread
      simp only [readPendingSplit, readBookkeeping, pendingSplitKey, hget] at hread
      simp [decode, MetaValue.split?, Except.map] at hread
      subst hread
      exact ⟨hs, rfl, rfl⟩
    · refine Or.inl ?_
      rw [if_neg (by simp), if_neg (by simp), if_neg (by simp), if_neg (by simp),
        if_neg (by simp [hg]), if_neg (by simp)] at hget
      rw [← readPendingSplit_congr hget]
      exact hread

end Machine

end Epoch
