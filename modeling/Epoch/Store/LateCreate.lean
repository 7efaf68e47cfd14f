import Epoch.Store.Rebuild

/-!
# Late creations (`service.rs`, `index.rs`)

The binding of a slot does not know epochs.  A creation binds the slot to its extent whatever the
epoch of the extent that is bound, and so does a compaction of an extent that is no longer bound.
PD gives a creation up and retries with a higher epoch; when the first request arrives after all, it
takes the slot back (`late_create_takes_slot_back`).

`bound_epoch_monotone` says when the epoch of the bound extent never falls.
-/

namespace Epoch

/-- `ShardId::epoch`. -/
def shardEpoch (shard : ShardId) : UInt32 := (shard &&& 0xFFFFFF).toUInt32

namespace StorageEngine

section

variable (crc32c : Bytes → UInt32)

/-- An operation that stops after some of its actions. -/
def operate (engine : StorageEngine) (a : DiskOp × ℕ) : StorageEngine :=
  engine.performAll ((DiskState.plan crc32c engine a.1).take a.2)

/-- The shard that an operation may bind, and the extent it binds it to. -/
def binds : DiskOp → Option ExtentId
  | .createExtent shard createTs | .createRebuilding shard createTs => some ⟨shard, createTs⟩
  | .compact source newTs => some ⟨source.shardId, newTs⟩
  | _ => none

/-- The extent of a creation is installed. -/
def installed (engine : StorageEngine) : DiskOp → Bool
  | .createExtent shard createTs | .createRebuilding shard createTs =>
    (engine.files.get ⟨shard, createTs⟩).isSome
      && (engine.index.getExtentMeta ⟨shard, createTs⟩).isSome
  | _ => false

/-- The condition on an operation: a creation whose extent is not installed, and a compaction, do
not name an epoch below the one that is bound. -/
def NotOlder (engine : StorageEngine) (a : DiskOp × ℕ) : Prop :=
  engine.installed a.1 = true ∨ ∀ extent ∈ binds a.1,
    ∀ bound ∈ engine.index.getShardBinding extent.shardId,
      shardEpoch bound.shardId ≤ shardEpoch extent.shardId

instance (engine : StorageEngine) (a : DiskOp × ℕ) : Decidable (engine.NotOlder a) :=
  inferInstanceAs (Decidable (_ ∨ ∀ extent ∈ binds a.1,
    ∀ bound ∈ engine.index.getShardBinding extent.shardId, _))

variable {engine : StorageEngine} {slot : UInt64}

/-- Actions that leave a slot alone or bind it to one extent. -/
lemma binding_performAll_cases {extent : ExtentId} {actions : List EngineAction}
    (h : ∀ a ∈ actions, KeepsBinding slot a ∨ ∀ old, bindingAfter slot old a = some extent)
    (engine : StorageEngine) :
    (engine.performAll actions).index.bindings.get slot = engine.index.bindings.get slot
      ∨ (engine.performAll actions).index.bindings.get slot = some extent := by
  induction actions generalizing engine with
  | nil => exact Or.inl rfl
  | cons a actions ih =>
    rw [performAll_cons]
    rcases ih (fun b hb => h b (List.mem_cons_of_mem a hb)) (engine.perform a) with hsame | hnew
    · rw [hsame, binding_perform]
      rcases h a List.mem_cons_self with hkeeps | hbinds
      · exact Or.inl (hkeeps _)
      · exact Or.inr (hbinds _)
    · exact Or.inr hnew

/-- A creation of an installed extent does nothing. -/
lemma plan_of_installed {op : DiskOp} (h : engine.installed op = true) :
    DiskState.plan crc32c engine op = [] := by
  cases op with
  | createExtent shard createTs =>
    rw [installed, Bool.and_eq_true] at h
    exact createPlan_of_installed _ h.1 h.2
  | createRebuilding shard createTs =>
    rw [installed, Bool.and_eq_true] at h
    exact createPlan_of_installed _ h.1 h.2
  | _ => exact absurd h (by simp [installed])

lemma mem_createPlan_binds (slot : UInt64) {shard : ShardId} {createTs : Int64}
    {st : ExtentStatus} {a : EngineAction} (ha : a ∈ engine.createPlan shard createTs st) :
    KeepsBinding slot a
      ∨ shardPrefix shard = slot ∧ ∀ old, bindingAfter slot old a = some ⟨shard, createTs⟩ := by
  have hinstall : a ∈ installPlan shard createTs st → KeepsBinding slot a
      ∨ shardPrefix shard = slot ∧ ∀ old, bindingAfter slot old a = some ⟨shard, createTs⟩ := by
    intro hmem
    simp only [installPlan, List.mem_cons, List.not_mem_nil, or_false] at hmem
    rcases hmem with rfl | rfl | rfl
    · exact Or.inl fun _ => rfl
    · by_cases hslot : shardPrefix shard = slot
      · exact Or.inr ⟨hslot, fun _ => if_pos hslot⟩
      · exact Or.inl fun _ => if_neg hslot
    · exact Or.inl fun _ => rfl
  unfold createPlan at ha
  cases hfile : engine.files.get ⟨shard, createTs⟩ with
  | none =>
    rw [hfile] at ha
    exact hinstall ha
  | some f =>
    cases hmeta : engine.index.getExtentMeta ⟨shard, createTs⟩ with
    | some m =>
      rw [hfile, hmeta] at ha
      exact absurd ha List.not_mem_nil
    | none =>
      simp only [hfile, hmeta] at ha
      rcases List.mem_cons.mp ha with rfl | ha
      · exact Or.inl fun _ => rfl
      · exact hinstall ha

/-- An operation binds the extent it may bind, at that extent's slot, or nothing. -/
lemma mem_plan_binds {op : DiskOp} {a : EngineAction}
    (ha : a ∈ DiskState.plan crc32c engine op) :
    KeepsBinding slot a ∨ ∃ extent ∈ binds op, shardPrefix extent.shardId = slot
      ∧ ∀ old, bindingAfter slot old a = some extent := by
  cases op with
  | createExtent shard createTs =>
    rcases mem_createPlan_binds slot ha with hkeeps | ⟨hslot, hbinds⟩
    · exact Or.inl hkeeps
    · exact Or.inr ⟨_, rfl, hslot, hbinds⟩
  | createRebuilding shard createTs =>
    rcases mem_createPlan_binds slot ha with hkeeps | ⟨hslot, hbinds⟩
    · exact Or.inl hkeeps
    · exact Or.inr ⟨_, rfl, hslot, hbinds⟩
  | compact source newTs =>
    by_cases hslot : shardPrefix source.shardId = slot
    · rcases mem_compactPlan crc32c ha with rfl | rfl | ⟨f, ha, -⟩ | ha
      · exact Or.inl fun _ => rfl
      · exact Or.inl fun _ => rfl
      · exact Or.inl ((touches_fillPlan crc32c ha).2 slot)
      · simp only [rebindPlan, List.mem_cons, List.not_mem_nil, or_false] at ha
        rcases ha with rfl | rfl | rfl | rfl
        · exact Or.inr ⟨_, rfl, hslot, fun _ => if_pos hslot⟩
        · exact Or.inl fun _ => rfl
        · exact Or.inl fun _ => rfl
        · exact Or.inl fun _ => rfl
    · exact Or.inl (compactPlan_other crc32c newTs hslot ha).2
  | promote extent =>
    simp only [DiskState.plan, promotePlan] at ha
    split_ifs at ha
    · rw [List.mem_singleton.mp ha]
      exact Or.inl fun _ => rfl
    · exact absurd ha List.not_mem_nil
  | sealExtent extent =>
    simp only [DiskState.plan, sealPlan] at ha
    split_ifs at ha
    · simp only [List.mem_cons, List.not_mem_nil, or_false] at ha
      rcases ha with rfl | rfl
      · exact Or.inl fun _ => rfl
      · exact Or.inl fun _ => rfl
    · exact absurd ha List.not_mem_nil
  | write extent blob body =>
    simp only [DiskState.plan] at ha
    rcases writePlan_cases crc32c engine extent blob body with
      ⟨err, hplan⟩ | ⟨-, -, ⟨entry, -, hplan⟩ | ⟨f, -, -, -, hplan⟩⟩
    · rw [hplan] at ha
      exact absurd ha List.not_mem_nil
    · rw [hplan] at ha
      exact absurd ha List.not_mem_nil
    · rw [hplan] at ha
      exact Or.inl ((touches_appendPlan crc32c ha).2 slot)
  | delete extent blob =>
    rw [List.mem_singleton.mp ha]
    exact Or.inl fun _ => rfl
  | reclaimDropped =>
    simp only [DiskState.plan, reclaimDroppedPlan_eq] at ha
    exact Or.inl ((mem_reclaimAll ha).2 slot)
  | reclaimOrphans =>
    simp only [DiskState.plan, reclaimOrphansPlan_eq] at ha
    exact Or.inl ((mem_reclaimAll ha).2 slot)

/-- A slot is left alone by an operation or bound to the extent that the operation may bind. -/
lemma binding_operate (engine : StorageEngine) (a : DiskOp × ℕ) (slot : UInt64) :
    (engine.operate crc32c a).index.bindings.get slot = engine.index.bindings.get slot
      ∨ ∃ extent ∈ binds a.1, shardPrefix extent.shardId = slot
        ∧ (engine.operate crc32c a).index.bindings.get slot = some extent := by
  have hmem : ∀ b ∈ (DiskState.plan crc32c engine a.1).take a.2, KeepsBinding slot b
      ∨ ∃ extent ∈ binds a.1, shardPrefix extent.shardId = slot
        ∧ ∀ old, bindingAfter slot old b = some extent :=
    fun b hb => mem_plan_binds crc32c (List.mem_of_mem_take hb)
  by_cases hbinds : ∃ extent ∈ binds a.1, shardPrefix extent.shardId = slot
  · obtain ⟨extent, hextent, hslot⟩ := hbinds
    have hcases : ∀ b ∈ (DiskState.plan crc32c engine a.1).take a.2,
        KeepsBinding slot b ∨ ∀ old, bindingAfter slot old b = some extent := by
      intro b hb
      refine (hmem b hb).imp_right ?_
      rintro ⟨extent', hextent', -, hall⟩
      rwa [Option.some.inj (hextent'.symm.trans hextent)] at hall
    rcases binding_performAll_cases hcases engine with hsame | hnew
    · exact Or.inl hsame
    · exact Or.inr ⟨extent, hextent, hslot, hnew⟩
  · refine Or.inl (binding_performAll (fun b hb => ?_) engine)
    rcases hmem b hb with hkeeps | ⟨extent, hextent, hslot, -⟩
    · exact hkeeps
    · exact absurd ⟨extent, hextent, hslot⟩ hbinds

end

end StorageEngine

open StorageEngine

/-- An operation that meets the condition does not lower the epoch of a bound extent. -/
lemma StorageEngine.NotOlder.step {engine : StorageEngine} {a : DiskOp × ℕ}
    (h : engine.NotOlder a) (crc32c : Bytes → UInt32) {slot : UInt64} {extent : ExtentId}
    (hbound : engine.index.bindings.get slot = some extent) :
    ∃ extent', (engine.operate crc32c a).index.bindings.get slot = some extent'
      ∧ shardEpoch extent.shardId ≤ shardEpoch extent'.shardId := by
  rcases h with hinst | hepoch
  · refine ⟨extent, ?_, UInt32.le_refl _⟩
    rw [operate, plan_of_installed crc32c hinst, List.take_nil]
    exact hbound
  · rcases binding_operate crc32c engine a slot with hsame | ⟨extent', hbinds, hslot, hnew⟩
    · exact ⟨extent, hsame.trans hbound, UInt32.le_refl _⟩
    · refine ⟨extent', hnew, hepoch extent' hbinds extent ?_⟩
      rw [DiskIndex.getShardBinding, hslot]
      exact hbound

/-- The epoch of the bound extent never falls while every operation meets the condition; and a
creation of an older epoch then changes no read. -/
theorem bound_epoch_monotone (crc32c : Bytes → UInt32) (engine : StorageEngine)
    {earlier later : List (DiskOp × ℕ)}
    (h : Along (operate crc32c) NotOlder engine (earlier ++ later)) {slot : UInt64}
    {extent : ExtentId}
    (hbound : (run (operate crc32c) engine earlier).index.bindings.get slot = some extent) :
    (∃ extent', (run (operate crc32c) engine (earlier ++ later)).index.bindings.get slot
          = some extent'
        ∧ shardEpoch extent.shardId ≤ shardEpoch extent'.shardId)
      ∧ ∀ op stop rest, later = (op, stop) :: rest →
          ∀ shard createTs,
            op = .createExtent shard createTs ∨ op = .createRebuilding shard createTs →
              shardPrefix shard = slot → shardEpoch shard < shardEpoch extent.shardId →
                ∀ shard' blob,
                  (run (operate crc32c) engine (earlier ++ [(op, stop)])).readShard shard' blob
                    = (run (operate crc32c) engine earlier).readShard shard' blob := by
  obtain ⟨-, hlater⟩ := (along_append _ _ _).mp h
  refine ⟨?_, ?_⟩
  · rw [run_append]
    refine Along.invariant (P := fun g : StorageEngine => ∃ extent',
      g.index.bindings.get slot = some extent'
        ∧ shardEpoch extent.shardId ≤ shardEpoch extent'.shardId) ?_
      ⟨extent, hbound, UInt32.le_refl _⟩ hlater
    rintro g a ⟨extent', hbound', hle⟩ ha
    obtain ⟨extent'', hbound'', hle'⟩ := ha.step crc32c hbound'
    exact ⟨extent'', hbound'', UInt32.le_trans hle hle'⟩
  · rintro op stop rest rfl shard createTs hop hslot hlt shard' blob
    rw [run_append, run_cons, run_nil]
    generalize run (operate crc32c) engine earlier = g at hbound hlater ⊢
    have hinst : g.installed op = true := by
      rcases hlater.1 with hinst | hepoch
      · exact hinst
      · have hbinds : binds op = some ⟨shard, createTs⟩ := by
          rcases hop with rfl | rfl <;> rfl
        have hle := hepoch ⟨shard, createTs⟩ hbinds extent
          (by rw [DiskIndex.getShardBinding, hslot]; exact hbound)
        exact absurd hlt (UInt32.not_lt.mpr hle)
    rw [operate, plan_of_installed crc32c hinst, List.take_nil, performAll_nil]

/-- A creation that is retried with a higher epoch, and a write. -/
def retriedRun : List (DiskOp × ℕ) :=
  [(.createExtent 1 5, 3), (.createExtent 2 5, 3), (.write ⟨2, 5⟩ 10 [1], 2)]

theorem bound_epoch_monotone_demo :
    Along (operate fun _ => 0) NotOlder .empty (retriedRun ++ [(.createExtent 2 5, 3)])
      ∧ ∃ extent', (run (operate fun _ => 0) .empty
          (retriedRun ++ [(.createExtent 2 5, 3)])).index.bindings.get 0 = some extent'
        ∧ shardEpoch 2 ≤ shardEpoch extent'.shardId := by
  have h : Along (operate fun _ => 0) NotOlder .empty
      (retriedRun ++ [(.createExtent 2 5, 3)]) := by decide +kernel
  have hbound : (run (operate fun _ => 0) .empty retriedRun).index.bindings.get 0
      = some ⟨2, 5⟩ := by decide +kernel
  exact ⟨h, (bound_epoch_monotone (fun _ => 0) .empty h hbound).1⟩

/-- The first request is executed after the second one: the slot is bound to the older epoch again
and the acknowledged blob is gone. -/
theorem late_create_takes_slot_back :
    (run (operate fun _ => 0) .empty [(.createExtent 2 5, 3), (.write ⟨2, 5⟩ 10 [1], 2)]).readShard
        2 10 = .ok (some [1])
      ∧ (run (operate fun _ => 0) .empty [(.createExtent 2 5, 3), (.write ⟨2, 5⟩ 10 [1], 2),
        (.createExtent 1 5, 3)]).index.bindings.get 0 = some ⟨1, 5⟩
      ∧ (run (operate fun _ => 0) .empty [(.createExtent 2 5, 3), (.write ⟨2, 5⟩ 10 [1], 2),
        (.createExtent 1 5, 3)]).readShard 2 10 = .ok none := by
  decide +kernel

end Epoch
