import Epoch.Meta.Raft.Node

/-!
# Partition confinement

An entry may only write keys of its own partition.  Nothing in `entryOps` checks that: the batch is
built from the op's coordinates whatever the machine's range is at that moment, so an entry that was
proposed before a split and is applied after it writes the sibling's keys
(`entryOps_escapes_after_split`).

`entryOps_confined` says when a batch does stay inside: the machine serves the op's namespace and
owns every coordinate the op may write (`Confined`).  For a record with segments, parts and queue
entries that is its whole key family, because `contains` reads a suffix as part of the routing key.
A sentinel counts where the op can write it: the parent's if the engine holds one, the minted
child's if it does not yet exist.
-/

namespace Epoch

namespace Machine

/-- The machine owns the sentinel of directory `i`, if the engine holds one. -/
def OwnsSentinel (m : Machine) (store : MetaStore) (b : BucketId) (i : UInt64) : Prop :=
  store.get .Fs (Hier.fsKey b i Hier.SENTINEL_NAME) ≠ none →
    m.range.containsCoord b (hierRoutingKey i Hier.SENTINEL_NAME) = true

instance (m : Machine) (store : MetaStore) (b : BucketId) (i : UInt64) :
    Decidable (m.OwnsSentinel store b i) := inferInstanceAs (Decidable (_ → _))

/-- The machine owns what a hierarchical op may write. -/
def OwnsHier (m : Machine) (store : MetaStore) : HierOp → Prop
  | .Write b i n .. | .Unlink b i n _ =>
    m.range.ownsFamily b (hierRoutingKey i n) ∧ m.OwnsSentinel store b i
  | .MkdirSentinel b .. =>
    match composeIno m.inoTag m.inoNext with
    | none => True
    | some child => store.get .Fs (Hier.fsKey b child Hier.SENTINEL_NAME) = none →
        m.range.containsCoord b (hierRoutingKey child Hier.SENTINEL_NAME) = true
  | .MkdirLink b i n .. | .RmdirUnlink b i n _ =>
    m.range.containsCoord b (hierRoutingKey i n) = true ∧ m.OwnsSentinel store b i
  | .RmdirSentinel b i _ => m.OwnsSentinel store b i
  | .RenameSameDir b i source target _ =>
    m.range.ownsFamily b (hierRoutingKey i source)
      ∧ m.range.ownsFamily b (hierRoutingKey i target) ∧ m.OwnsSentinel store b i

instance (m : Machine) (store : MetaStore) : (op : HierOp) → Decidable (m.OwnsHier store op)
  | .Write .. | .Unlink .. | .MkdirLink .. | .RmdirUnlink .. | .RenameSameDir .. =>
    inferInstanceAs (Decidable (_ ∧ _))
  | .RmdirSentinel b i _ => inferInstanceAs (Decidable (m.OwnsSentinel store b i))
  | .MkdirSentinel b .. =>
    decidable_of_iff (∀ child ∈ composeIno m.inoTag m.inoNext,
      store.get .Fs (Hier.fsKey b child Hier.SENTINEL_NAME) = none →
        m.range.containsCoord b (hierRoutingKey child Hier.SENTINEL_NAME) = true) (by
      rw [OwnsHier]
      cases composeIno m.inoTag m.inoNext <;> simp)

/-- A namespace entry meets a machine of its namespace that owns what the op may write; other
entries are unconstrained. -/
def Owns (m : Machine) (store : MetaStore) (entry : Entry) : Prop :=
  match entry.payload with
  | .Normal (.Flat op) => m.range.ns = .Flat ∧ m.range.ownsFamily op.bucket op.key
  | .Normal (.Hier op) => m.range.ns = .Hier ∧ m.OwnsHier store op
  | _ => True

instance (m : Machine) (store : MetaStore) (entry : Entry) : Decidable (m.Owns store entry) := by
  delta Owns
  cases entry.payload with
  | Normal e => cases e <;> infer_instance
  | _ => infer_instance

end Machine

/-- The condition on a step: the group that commits an entry owns what it may write. -/
def Confined (n : Node) : NodeStep → Prop
  | .apply g entry _ => ∀ m ∈ n.machines g, m.Owns n.store entry
  | _ => True

instance (n : Node) (a : NodeStep) : Decidable (Confined n a) := by
  unfold Confined
  cases a with
  | apply g entry last => infer_instance
  | _ => infer_instance

/-- A Flat or Hier entry. -/
def Entry.isNamespaceOp (entry : Entry) : Bool :=
  match entry.payload with
  | .Normal (.Flat _) => true
  | .Normal (.Hier _) => true
  | _ => false

/-! ## Owned footprints -/

section

variable {r : PartitionRange} {b : BucketId} {k : Bytes} {c : MetaCf} {key : Bytes}

lemma contains_of_under {cfs : List MetaCf} (hrouted : ∀ c ∈ cfs, c ∈ MetaCf.routed)
    (hcfs : ∀ c ∈ cfs, r.ownsCf c = true) (hown : r.ownsFamily b k) (h : under cfs b k c key) :
    r.contains key = true := by
  obtain ⟨hc, t, rfl⟩ := h
  have hkey : flatKey c b k [] ++ t = flatKey c b k t := by simp [flatKey]
  rw [hkey, PartitionRange.contains_flatKey (hrouted c hc), hcfs c hc, hown.containsCoord t]
  rfl

lemma contains_of_atRecord {i : UInt64} {n : Bytes} (hns : r.ns = .Hier)
    (hown : r.containsCoord b (hierRoutingKey i n) = true) (h : atRecord b i n c key) :
    r.contains key = true := by
  obtain ⟨rfl, rfl⟩ := h
  rw [Hier.fsKey_eq, PartitionRange.contains_flatKey (by decide), List.append_nil, hown]
  simp [PartitionRange.ownsCf, PartitionRange.exportedCfs, hns]

lemma ownsCf_flat (hns : r.ns = .Flat) : ∀ c ∈ flatCfs, r.ownsCf c = true := by
  intro c hc
  simp only [flatCfs, List.mem_cons, List.not_mem_nil, or_false] at hc
  rcases hc with rfl | rfl | rfl | rfl <;>
    simp [PartitionRange.ownsCf, PartitionRange.exportedCfs, hns]

lemma ownsCf_hier (hns : r.ns = .Hier) : ∀ c ∈ hierCfs, r.ownsCf c = true := by
  intro c hc
  simp only [hierCfs, List.mem_cons, List.not_mem_nil, or_false] at hc
  rcases hc with rfl | rfl | rfl <;>
    simp [PartitionRange.ownsCf, PartitionRange.exportedCfs, hns]

end

namespace Machine

variable {m m' : Machine} {store : MetaStore} {c : MetaCf} {key : Bytes}

lemma contains_of_atSentinel {b : BucketId} {i : UInt64} (hns : m.range.ns = .Hier)
    (hown : m.OwnsSentinel store b i) (h : atSentinel store b i c key) :
    m.range.contains key = true :=
  contains_of_atRecord hns (hown h.2) h.1

lemma contains_of_hier_writes {op : HierOp} (hns : m.range.ns = .Hier) (hown : m.OwnsHier store op)
    (h : op.writes store ⟨m.inoTag, m.inoNext⟩ c key) : m.range.contains key = true := by
  have hunder : ∀ {b k}, m.range.ownsFamily b k → under hierCfs b k c key →
      m.range.contains key = true :=
    fun hfam hu => contains_of_under (by decide) (ownsCf_hier hns) hfam hu
  cases op with
  | Write b i n size etag content http ts =>
    rcases h with h | h
    · exact hunder hown.1 h
    · exact contains_of_atSentinel hns hown.2 h
  | Unlink b i n ts =>
    rcases h with h | h
    · exact hunder hown.1 h
    · exact contains_of_atSentinel hns hown.2 h
  | MkdirSentinel b i n ts =>
    obtain ⟨child, ino', hmint, hnone, hat⟩ := h
    unfold InoAllocator.mint at hmint
    cases hc : composeIno m.inoTag m.inoNext with
    | none => simp [hc] at hmint
    | some ino =>
      obtain rfl : ino = child := by simp [hc] at hmint; exact hmint.1
      simp only [OwnsHier, hc] at hown
      exact contains_of_atRecord hns (hown hnone) hat
  | MkdirLink b i n child ts =>
    rcases h with h | h
    · exact contains_of_atRecord hns hown.1 h
    · exact contains_of_atSentinel hns hown.2 h
  | RmdirUnlink b i n ts =>
    rcases h with h | h
    · exact contains_of_atRecord hns hown.1 h
    · exact contains_of_atSentinel hns hown.2 h
  | RmdirSentinel b i ts => exact contains_of_atSentinel hns hown h
  | RenameSameDir b i source target ts =>
    rcases h with h | h | h
    · exact hunder hown.1 h
    · exact hunder hown.2.1 h
    · exact contains_of_atSentinel hns hown.2.2 h

/-- **The batch of an owned entry stays in the range**, the bookkeeping records apart. -/
lemma entryOps_contains {blake3 : Bytes → BitVec 256} {entry : Entry} {ops : List StoreOp}
    {response : MetaResponse} (hns : entry.isNamespaceOp = true) (hown : m.Owns store entry)
    (h : m.entryOps blake3 store entry = .ok (ops, response, m')) {op : StoreOp} (hop : op ∈ ops)
    (hcf : op.cf ≠ .Applied) : m.range.contains op.key = true := by
  have hmem : ∀ {out : List StoreOp}, op ∈ out → (op.key, op.value) ∈ KvStore.on op.cf out :=
    fun ho => KvStore.mem_on.mpr ho
  cases entryOps_effect h with
  | blank hp => simp [Entry.isNamespaceOp, hp] at hns
  | storeOps hp => simp [Entry.isNamespaceOp, hp] at hns
  | idleSplit hp hs => simp [Entry.isNamespaceOp, hp] at hns
  | split hp hs => simp [Entry.isNamespaceOp, hp] at hns
  | membership hp => simp [Entry.isNamespaceOp, hp] at hns
  | flat hp ha =>
    simp only [Owns, hp] at hown
    rcases List.mem_append.mp hop with ho | ho
    · exact contains_of_under (by decide) (ownsCf_flat hown.1) hown.2
        (Flat.apply_writes ha op.cf _ (hmem ho))
    · refine absurd ?_ hcf
      rcases List.mem_pair.mp ho with rfl | rfl <;> rfl
  | hier hp ha =>
    simp only [Owns, hp] at hown
    rcases List.mem_append.mp hop with ho | ho
    · exact contains_of_hier_writes hown.1 hown.2 (Hier.apply_writes ha op.cf _ (hmem ho))
    · refine absurd ?_ hcf
      simp only [List.mem_cons, List.not_mem_nil, or_false] at ho
      rcases ho with rfl | rfl | rfl <;> rfl

end Machine

/-- **Partition confinement.**  In every run of a node whose steps meet the condition, every
user-data op in the batch of a Flat or Hier entry has a key in the range its group's machine has at
that moment. -/
theorem entryOps_confined (blake3 : Bytes → BitVec 256) (n₀ : Node) (steps : List NodeStep)
    (h : Along (Node.step blake3) Confined n₀ steps) (before after : List NodeStep) (g : UInt64)
    (entry : Entry) (last : Bool) (hsteps : steps = before ++ .apply g entry last :: after)
    (hentry : entry.isNamespaceOp = true) :
    let n := run (Node.step blake3) n₀ before
    ∀ m ops response m', n.machines g = some m →
      m.entryOps blake3 n.store entry = .ok (ops, response, m') →
        ∀ op ∈ ops, op.cf ≠ .Applied → m.range.contains op.key = true := by
  intro n m ops response m' hm he op hop hcf
  rw [hsteps, along_append] at h
  have hown : m.Owns n.store entry := h.2.1 m hm
  exact Machine.entryOps_contains hentry hown he hop hcf

/-- After a Split at `m`, a Put of `b` is still inside the narrowed range. -/
theorem entryOps_confined_demo :
    let n := run (Node.step fun _ => 0) (Node.running KvStore.empty (demoMachine .Flat))
      [demoApply (.Flat (demoPut [0x61] 65)), demoSplit [0x6d]]
    ∃ m ops response m', n.machines 1 = some m
      ∧ m.entryOps (fun _ => 0) n.store ⟨⟨1, 1, 1⟩, .Normal (.Flat (demoPut [0x62] 65))⟩
        = .ok (ops, response, m')
      ∧ ∀ op ∈ ops, op.cf ≠ .Applied → m.range.contains op.key = true := by
  have hm : (run (Node.step fun _ => 0) (Node.running KvStore.empty (demoMachine .Flat))
      [demoApply (.Flat (demoPut [0x61] 65)), demoSplit [0x6d]]).machines 1
      = some ⟨1, ⟨.Flat, none, some (1, [0x6d])⟩, ⟨0, 0, 0, 0⟩, 1, 0, 0⟩ := by decide +kernel
  refine ⟨_, _, _, _, hm, rfl, ?_⟩
  exact entryOps_confined (fun _ => 0) (Node.running KvStore.empty (demoMachine .Flat))
    [demoApply (.Flat (demoPut [0x61] 65)), demoSplit [0x6d], demoApply (.Flat (demoPut [0x62] 65))]
    (by decide +kernel) _ [] 1 _ true rfl (by decide) _ _ _ _ hm rfl

/-- A Put of `z` that was proposed before a Split at `m` and is applied after it: the machine's
range has shrunk, and the batch still puts the head of `z`. -/
theorem entryOps_escapes_after_split :
    let n := run (Node.step fun _ => 0) (Node.running KvStore.empty (demoMachine .Flat))
      [demoSplit [0x6d]]
    ∃ m ops response m', n.machines 1 = some m
      ∧ m.entryOps (fun _ => 0) n.store ⟨⟨1, 1, 1⟩, .Normal (.Flat (demoPut [0x7a] 1))⟩
        = .ok (ops, response, m')
      ∧ ∃ op ∈ ops, op.cf = .Meta ∧ m.range.contains op.key = false := by
  refine ⟨⟨1, ⟨.Flat, none, some (1, [0x6d])⟩, ⟨0, 0, 0, 0⟩, 0, 0, 0⟩, _, _, _, by decide +kernel,
    rfl, ?_⟩
  decide +kernel

end Epoch
