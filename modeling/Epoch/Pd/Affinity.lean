import Epoch.Pd.Reachable

/-!
# Shards on different nodes (`epoch-pd/src/state.rs`)

No check of the state machine looks at a whole chunk: `chunk_plan_reject` does not read nodes, and
`rebind_affinity_reject` only checks the slot that moves.  If plans start out on different nodes, as
`plan_placement` makes them, chunks stay so: a plan keeps its disks until it is committed, a disk
keeps its node, and a slot that moves is compared with all others.
-/

namespace Epoch.Pd

/-- Two known disks of different nodes. -/
def DiskIndex.Apart (disks : DiskIndex) (a b : DiskId) : Prop :=
  ∃ d ∈ disks.get a, ∃ e ∈ disks.get b, d.nodeId ≠ e.nodeId

/-- Slots of different indices are on different nodes. -/
def DiskIndex.Spreads (disks : DiskIndex) (slots : List SlotPlan) : Prop :=
  ∀ s ∈ slots, ∀ t ∈ slots, s.index ≠ t.index → disks.Apart s.diskId t.diskId

/-- Where a slot lies. -/
def ShardSlot.place (slot : ShardSlot) : SlotPlan := ⟨slot.index, slot.diskId⟩

lemma findSlot_eq_some {shards : List ShardSlot} {i : UInt8} {slot : ShardSlot}
    (h : findSlot shards i = some slot) : slot ∈ shards ∧ slot.index = i :=
  ⟨List.mem_of_find?_eq_some h, by simpa using List.find?_some h⟩

/-- Slots that are composed one by one stay in their places. -/
lemma map_place_mapM {α : Type} {f : α → Except SmError ShardSlot} {g : α → SlotPlan}
    (hf : ∀ a slot, f a = .ok slot → slot.place = g a) {l : List α} {shards : List ShardSlot}
    (h : l.mapM f = .ok shards) : shards.map ShardSlot.place = l.map g := by
  induction l generalizing shards with
  | nil => cases h; rfl
  | cons a l ih =>
    rw [List.mapM_cons] at h
    cases hfa : f a with
    | error err => rw [hfa] at h; cases h
    | ok slot =>
      cases hl : l.mapM f with
      | error err => rw [hfa, hl] at h; cases h
      | ok rest =>
        rw [hfa, hl] at h
        cases h
        rw [List.map_cons, List.map_cons, hf a slot hfa, ih hl]

namespace PdState

/-- An accepted plan starts out on different nodes. -/
def PlansApart (state : PdState) : PdEntry → Prop
  | .CreateChunkStaging cmd => state.chunkPlanReject cmd = none → state.disks.Spreads cmd.slots
  | _ => True

/-- Two shards of a chunk are on different nodes. -/
def HostAware (state : PdState) : Prop :=
  ∀ c i j s t, state.slotAt c i = some s → state.slotAt c j = some t → i ≠ j →
    state.disks.Apart s.diskId t.diskId

structure Spread (state : PdState) : Prop where
  wellFormed : state.WellFormed
  chunks : state.HostAware
  staging : ∀ c plan, state.chunks.staging.get c = some plan →
    state.disks.Spreads (plan.shards.map ShardSlot.place)

variable {state : PdState} {entry : PdEntry}

lemma apart_next (hwf : state.WellFormed) {a b : DiskId} (h : state.disks.Apart a b) :
    (state.next entry).disks.Apart a b := by
  obtain ⟨d, hd, e, he, hne⟩ := h
  obtain ⟨d', hd', hnode, -⟩ := disks_next hwf entry hd
  obtain ⟨e', he', hnode', -⟩ := disks_next hwf entry he
  exact ⟨d', hd', e', he', by rwa [hnode, hnode']⟩

/-- The gate compares the new disk with those of all other slots. -/
lemma Spread.rebind (h : state.Spread) {c : ChunkId} {i j : UInt8} {newDisk : DiskId}
    {old slot : ShardSlot} (haffinity : state.rebindAffinityReject c i newDisk = none)
    (hold : state.slotAt c i = some old) (hslot : state.slotAt c j = some slot) (hne : j ≠ i) :
    state.disks.Apart slot.diskId newDisk := by
  -- the gate skips slots on unknown disks, but this one was apart from the slot that moves
  obtain ⟨e, he, -⟩ := h.chunks _ _ _ _ _ hslot hold hne
  obtain ⟨chunk, hchunk, hfind⟩ := Option.bind_eq_some_iff.mp hslot
  obtain ⟨hmem, rfl⟩ := findSlot_eq_some hfind
  rw [rebindAffinityReject, hchunk] at haffinity
  cases htarget : state.disks.get newDisk with
  | none => simp [htarget] at haffinity
  | some target =>
    simp [htarget, rebindPreservesAffinity, rebindAffinity] at haffinity
    exact ⟨e, he, target, htarget, by simpa [Option.mem_def.mp he] using haffinity slot hmem hne⟩

/-- A plan keeps its places, or it is a new one. -/
lemma Spread.plan (h : state.Spread) (hplan : state.PlansApart entry) {c : ChunkId}
    {plan : StagingChunk} (hget : (state.next entry).chunks.staging.get c = some plan) :
    state.disks.Spreads (plan.shards.map ShardSlot.place) := by
  have hkept := h.staging c plan
  cases state.change_next entry with
  | same _ hchunks | registered _ hchunks | marked _ hchunks =>
    rw [hchunks] at hget
    exact hkept hget
  | planned _ hcreate haccept =>
    obtain ⟨-, -, -, shards, hshards, hins⟩ := ChunkIndex.applyCreateStaging_ok hcreate
    rw [hins, OrdMap.get_insert] at hget
    split_ifs at hget
    · cases hget
      have hplaces := map_place_mapM (g := id)
        (fun _ _ hslot => by simp [ShardSlot.place, composeSlot_ok hslot]) hshards
      simpa [hplaces, DiskIndex.Spreads] using hplan haccept
    · exact hkept hget
  | committed _ hcommit =>
    rw [hcommit, ChunkIndex.applyCommit] at hget
    split at hget
    · exact hkept hget
    · simp only [OrdMap.get_erase] at hget
      split_ifs at hget
      exact hkept hget
  | rebumped _ hrebump =>
    rcases (ChunkIndex.applyRebump_ok hrebump).2.2 with hsame | ⟨old, shards, hold, hshards, hins⟩
    · rw [hsame] at hget
      exact hkept hget
    · rw [hins, OrdMap.get_insert] at hget
      split_ifs at hget
      · cases hget
        have hplaces := map_place_mapM (g := ShardSlot.place) (fun old slot hslot => by
          unfold ChunkIndex.rebumpSlot at hslot
          split_ifs at hslot
          simp [ShardSlot.place, composeSlot_ok hslot]) hshards
        rw [hplaces]
        exact h.staging _ old hold
      · exact hkept hget
  | sealed _ hseal =>
    rw [hseal, ChunkIndex.applySealChunk] at hget
    split at hget
    · exact hkept hget
    · split at hget <;> exact hkept hget
  | rebound _ _ _ hrebind =>
    obtain ⟨-, -, -, -, -, -, -, -, -, -, hsame, -⟩ := ChunkIndex.applyRebind_ok hrebind
    rw [hsame] at hget
    exact hkept hget

/-- Every entry whose plan is apart keeps chunks and plans apart. -/
lemma Spread.next (h : state.Spread) (hplan : state.PlansApart entry) :
    (state.next entry).Spread := by
  refine ⟨h.wellFormed.next entry, fun c i j s t hi hj hne => apart_next h.wellFormed ?_,
    fun c plan hget s hs t ht hne => apart_next h.wellFormed (h.plan hplan hget s hs t ht hne)⟩
  cases slotStep h.wellFormed entry with
  | same hsame =>
    rw [hsame] at hi hj
    exact h.chunks c i j s t hi hj hne
  | committed chunkId staging _ hstaging _ hslots =>
    rw [hslots] at hi hj
    split_ifs at hi hj with hc
    · obtain ⟨hs, rfl⟩ := findSlot_eq_some hi
      obtain ⟨ht, rfl⟩ := findSlot_eq_some hj
      exact h.staging chunkId staging hstaging _ (List.mem_map_of_mem hs) _
        (List.mem_map_of_mem ht) hne
    · exact h.chunks c i j s t hi hj hne
  | rebound chunkId index newDisk _ haffinity hrebound =>
    obtain ⟨old, rebuilt, hold, -, rfl, hslots⟩ := hrebound.slot
    rw [hslots] at hi hj
    split_ifs at hi hj with hci hcj hcj
    · exact absurd (hci.2.trans hcj.2.symm) hne
    · cases hi
      obtain ⟨rfl, rfl⟩ := hci
      obtain ⟨d, hd, e, he, hnode⟩ := h.rebind haffinity hold hj hne.symm
      exact ⟨e, he, d, hd, hnode.symm⟩
    · cases hj
      obtain ⟨rfl, rfl⟩ := hcj
      exact h.rebind haffinity hold hi hne
    · exact h.chunks c i j s t hi hj hne

/-- **Two shards of a chunk are never on one node**, in all states that entries with spread plans
lead to. -/
theorem shards_on_different_nodes {entries : List PdEntry}
    (hplans : Along PdState.next PlansApart new entries) :
    (run PdState.next new entries).HostAware :=
  (Along.invariant (P := Spread) (fun _ _ h hplan => h.next hplan)
    ⟨wellFormed_new, fun _ _ _ _ _ hi => by simp [new, ChunkIndex.new, slotAt, ChunkIndex.get] at hi,
      fun _ _ hget => by simp [new, ChunkIndex.new] at hget⟩ hplans).chunks

/-- A chunk on two nodes, whose first shard may move to another disk of its node, not to the other
node. -/
def movedShard : List PdEntry :=
  [.RegisterNode ⟨"a", "z", "r", .DATA⟩, .RegisterNode ⟨"b", "z", "r", .DATA⟩,
    .RegisterDisk ⟨1, "z", "r", "/", 9⟩, .RegisterDisk ⟨2, "z", "r", "/", 9⟩,
    .RegisterDisk ⟨1, "z", "r", "/2", 9⟩,
    .CreateChunkStaging ⟨⟨1, 1, 1, 1024, 4096⟩, [⟨1, 2⟩, ⟨0, 1⟩], 5, 0⟩, .CommitChunk ⟨1⟩,
    .ReportShardRepair ⟨1, 0⟩, .CommitShardRepair ⟨1, 0, 0, 2, 6, 1⟩,
    .CommitShardRepair ⟨1, 0, 0, 3, 6, 1⟩]

theorem shards_on_different_nodes_demo :
    let state := run PdState.next new movedShard
    (state.slotAt 1 0).map (·.diskId) = some 3 ∧ (state.slotAt 1 1).map (·.diskId) = some 2
      ∧ state.HostAware := by
  refine ⟨by decide +kernel, by decide +kernel, shards_on_different_nodes ⟨trivial, trivial, trivial,
    trivial, trivial, fun _ => ?_, trivial, trivial, trivial, trivial, trivial⟩⟩
  simpa [DiskIndex.Spreads] using ⟨⟨_, rfl, _, rfl, by decide⟩, ⟨_, rfl, _, rfl, by decide⟩⟩

end PdState

end Epoch.Pd
