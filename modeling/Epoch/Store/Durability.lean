import Epoch.Store.Sweep
import Epoch.Store.Writer

/-!
# A data node keeps what it acknowledged

Creations, writes, deletes and maintenance sweeps of one engine.  The node records what it answered:
for each slot and blob the body of the first accepted write since the last delete.

Two answers are not kept.  A creation that is repeated after a compaction finds neither file nor
metadata of its extent, which the compaction has retired; it creates the extent anew and binds the
slot to it, and the next sweep removes the extent that holds the data
(`repeated_create_loses_blobs`).  And a write of a blob whose entry is tombstoned is answered as a
duplicate, while the next compaction drops the entry.

`node_keeps_acknowledged` says that these are the only ways.
-/

namespace Epoch

namespace StorageEngine

variable (crc32c : Bytes → UInt32)

/-- `write`, with a queue that holds only this request. -/
def writePlan (engine : StorageEngine) (extent : ExtentId) (blob : BlobId) (body : Bytes) :
    List EngineAction × WriteReply :=
  if extent ∉ engine.writers then ([], .error (.ExtentNotFound extent))
  else
    match ExtentWriter.loadWritableMeta extent engine.index with
    | .error err => ([], .error err)
    | .ok () =>
      match engine.index.getBlob extent blob, engine.files.get extent with
      | some _, _ => ([], .ok .AlreadyExists)
      | none, none => ([], .error .Extent)
      | none, some f =>
        if 2 ^ 32 ≤ body.length then ([], .error (.BodyTooLarge body.length))
        else if f.accepts body then
          (appendPlan crc32c extent f ⟨blob, extent.shardId, body⟩, .ok .Written)
        else ([], .error .Extent)

/-- What a write can do. -/
lemma writePlan_cases (engine : StorageEngine) (extent : ExtentId) (blob : BlobId) (body : Bytes) :
    (∃ err, writePlan crc32c engine extent blob body = ([], .error err))
      ∨ extent ∈ engine.writers ∧ (engine.index.getExtentMeta extent).isSome
        ∧ ((∃ entry, engine.index.getBlob extent blob = some entry
            ∧ writePlan crc32c engine extent blob body = ([], .ok .AlreadyExists))
          ∨ ∃ f, engine.index.getBlob extent blob = none ∧ engine.files.get extent = some f
            ∧ f.accepts body = true
            ∧ writePlan crc32c engine extent blob body
              = (appendPlan crc32c extent f ⟨blob, extent.shardId, body⟩, .ok .Written)) := by
  unfold writePlan
  by_cases hwriter : extent ∈ engine.writers
  swap
  · exact Or.inl ⟨_, if_pos hwriter⟩
  rw [if_neg (not_not.mpr hwriter)]
  cases hmeta : engine.index.getExtentMeta extent with
  | none =>
    simp only [ExtentWriter.loadWritableMeta, hmeta]
    exact Or.inl ⟨_, rfl⟩
  | some m =>
    simp only [ExtentWriter.loadWritableMeta, hmeta]
    cases writableGate m.status with
    | error err => exact Or.inl ⟨err, rfl⟩
    | ok u =>
      cases hget : engine.index.getBlob extent blob with
      | some entry => exact Or.inr ⟨hwriter, rfl, Or.inl ⟨entry, rfl, rfl⟩⟩
      | none =>
        cases hfile : engine.files.get extent with
        | none => exact Or.inl ⟨_, rfl⟩
        | some f =>
          by_cases hlen : 2 ^ 32 ≤ body.length
          · exact Or.inl ⟨_, if_pos hlen⟩
          by_cases hacc : f.accepts body = true
          · refine Or.inr ⟨hwriter, rfl, Or.inr ⟨f, rfl, rfl, hacc, ?_⟩⟩
            simp only [if_neg hlen, if_pos hacc]
          · refine Or.inl ⟨.Extent, ?_⟩
            simp only [if_neg hlen, if_neg hacc]

end StorageEngine

/-- A blob of a slot. -/
abbrev SlotKey := UInt64 ×ₗ BlobId

/-- An engine, and what it answered. -/
structure DataNode where
  engine : StorageEngine
  -- the body of the first accepted write since the last answered delete
  kept : OrdMap SlotKey Bytes
  -- the blobs whose delete was answered after their last accepted write
  deleted : Finset (UInt64 × BlobId)

inductive DataNodeStep
  | createExtent (shard : ShardId)
  | write (extent : ExtentId) (blob : BlobId) (body : Bytes)
  | delete (extent : ExtentId) (blob : BlobId)
  | sweep (ratioPercent : UInt8) (perSweep : ℕ) (clock : ExtentId → Int64)

namespace DataNode

def empty : DataNode := ⟨.empty, .empty, ∅⟩

section

variable (crc32c : Bytes → UInt32) (createTs : ShardId → Int64)

/-- Accepted writes are recorded; so are deletes, which are always answered. -/
def step (node : DataNode) : DataNodeStep → DataNode
  | .createExtent shard =>
    { node with
      engine := node.engine.performAll
        (node.engine.createPlan shard (createTs shard) .Writable) }
  | .write extent blob body =>
    let slot := shardPrefix extent.shardId
    let engine := node.engine.performAll
      (StorageEngine.writePlan crc32c node.engine extent blob body).1
    match (StorageEngine.writePlan crc32c node.engine extent blob body).2 with
    | .error _ => { node with engine }
    | .ok _ =>
      { engine
        kept :=
          if (node.kept.get (toLex (slot, blob))).isSome then node.kept
          else node.kept.insert (toLex (slot, blob)) body
        deleted := node.deleted.erase (slot, blob) }
  | .delete extent blob =>
    let slot := shardPrefix extent.shardId
    { engine := node.engine.performAll (node.engine.deletePlan extent blob)
      kept := node.kept.erase (toLex (slot, blob))
      deleted := insert (slot, blob) node.deleted }
  | .sweep ratioPercent perSweep clock =>
    { node with engine := node.engine.sweep crc32c ratioPercent perSweep clock }

/-- The condition on a step: a creation finds its slot unbound or its extent installed, and a write
does not name a blob that is tombstoned in its extent. -/
def Respects (node : DataNode) : DataNodeStep → Prop
  | .createExtent shard =>
    node.engine.index.getShardBinding shard = none
      ∨ (node.engine.files.get ⟨shard, createTs shard⟩).isSome
        ∧ (node.engine.index.getExtentMeta ⟨shard, createTs shard⟩).isSome
  | .write extent blob _ =>
    ∀ entry ∈ node.engine.index.getBlob extent blob, entry.isTombstoned = false
  | _ => True

instance (node : DataNode) (a : DataNodeStep) : Decidable (node.Respects createTs a) :=
  match a with
  | .createExtent _ => inferInstanceAs (Decidable (_ ∨ _))
  | .write extent blob _ =>
    inferInstanceAs (Decidable (∀ entry ∈ node.engine.index.getBlob extent blob,
      entry.isTombstoned = false))
  | .delete _ _ => inferInstanceAs (Decidable True)
  | .sweep _ _ _ => inferInstanceAs (Decidable True)

end

/-! ## The invariant -/

open StorageEngine

/-- The slot is unbound with nothing kept, or its extent has exactly what is kept. -/
def SlotKept (engine : StorageEngine) (kept : OrdMap SlotKey Bytes) (slot : UInt64) : Prop :=
  (engine.index.bindings.get slot = none ∧ ∀ blob, kept.get (toLex (slot, blob)) = none)
    ∨ ∃ extent, Serves engine slot extent ∧ ∀ blob,
        (∀ body, kept.get (toLex (slot, blob)) = some body → Live engine extent blob body)
          ∧ (kept.get (toLex (slot, blob)) = none → Dead engine extent blob)

structure Keeps (node : DataNode) : Prop where
  tidy : node.engine.Tidy
  writers : node.engine.WritersBound
  slots : ∀ slot, SlotKept node.engine node.kept slot
  deleted : ∀ key ∈ node.deleted, node.kept.get (toLex key) = none

lemma keeps_empty : Keeps .empty := by
  refine ⟨⟨?_, ?_, ?_⟩, ?_, ?_, ?_⟩
  · intro extent m hm
    exact absurd hm (by simp [empty, StorageEngine.empty, DiskIndex.empty, DiskIndex.getExtentMeta])
  · intro extent blob hsome
    exact absurd hsome (by simp [empty, StorageEngine.empty, DiskIndex.empty, DiskIndex.getBlob])
  · intro extent blob hsome
    exact absurd hsome (by simp [empty, StorageEngine.empty, DiskIndex.empty, DiskIndex.getBlob])
  · intro extent hmem
    exact absurd hmem (Finset.notMem_empty extent)
  · intro slot
    exact Or.inl ⟨rfl, fun _ => rfl⟩
  · intro key hmem
    exact absurd hmem (Finset.notMem_empty key)

variable {engine engine' : StorageEngine} {kept kept' : OrdMap SlotKey Bytes} {slot : UInt64}

/-- A slot whose extent carries over, or which stays unbound. -/
lemma SlotKept.carries (h : SlotKept engine kept slot)
    (hkept : ∀ blob, kept'.get (toLex (slot, blob)) = kept.get (toLex (slot, blob)))
    (hunbound : engine.index.bindings.get slot = none → engine'.index.bindings.get slot = none)
    (hbound : ∀ extent, Serves engine slot extent →
      ∃ extent', Carries slot engine extent engine' extent') :
    SlotKept engine' kept' slot := by
  rcases h with ⟨hnone, hempty⟩ | ⟨extent, hserves, hall⟩
  · exact Or.inl ⟨hunbound hnone, fun blob => (hkept blob).trans (hempty blob)⟩
  · obtain ⟨extent', hcarries⟩ := hbound extent hserves
    refine Or.inr ⟨extent', hcarries.serves, fun blob => ⟨?_, ?_⟩⟩
    · intro body hbody
      exact hcarries.live blob body ((hall blob).1 body (hkept blob ▸ hbody))
    · intro hnone
      exact hcarries.dead blob ((hall blob).2 (hkept blob ▸ hnone))

/-- A slot that an operation does not reach. -/
lemma SlotKept.performAll (h : SlotKept engine kept slot)
    (hkept : ∀ blob, kept'.get (toLex (slot, blob)) = kept.get (toLex (slot, blob)))
    {actions : List EngineAction}
    (htouch : ∀ a ∈ actions, ∀ e ∈ a.touches, shardPrefix e.shardId ≠ slot)
    (hbind : ∀ a ∈ actions, KeepsBinding slot a) :
    SlotKept (engine.performAll actions) kept' slot := by
  refine h.carries hkept ?_ ?_
  · rw [binding_performAll hbind]
    exact id
  · intro extent hserves
    exact ⟨extent, hserves.carries_performAll
      (fun a ha hmem => htouch a ha extent hmem hserves.slot_eq) hbind⟩

variable {node : DataNode} {extent : ExtentId}

/-- An extent without entries serves a slot for which nothing is kept. -/
lemma SlotKept.of_fresh (hserves : Serves engine slot extent)
    (hfresh : ∀ blob, engine.index.getBlob extent blob = none)
    (hempty : ∀ blob, kept.get (toLex (slot, blob)) = none) : SlotKept engine kept slot := by
  refine Or.inr ⟨extent, hserves, fun blob => ⟨?_, ?_⟩⟩
  · intro body hbody
    rw [hempty blob] at hbody
    exact absurd hbody (by simp)
  · intro _ entry hget
    rw [hfresh blob] at hget
    exact absurd hget (by simp)

/-- The slot of a registered writer. -/
lemma SlotKept.of_writer (h : SlotKept engine kept slot)
    (hbound : engine.index.bindings.get slot = some extent) :
    Serves engine slot extent ∧ ∀ blob,
      (∀ body, kept.get (toLex (slot, blob)) = some body → Live engine extent blob body)
        ∧ (kept.get (toLex (slot, blob)) = none → Dead engine extent blob) := by
  rcases h with ⟨hnone, -⟩ | ⟨extent', hserves, hall⟩
  · rw [hnone] at hbound
    exact absurd hbound (by simp)
  · obtain rfl : extent = extent' := Option.some.inj (hbound.symm.trans hserves.bound)
    exact ⟨hserves, hall⟩

/-! ### Creations -/

lemma Keeps.install (h : Keeps node) {shard : ShardId} {createTs : Int64}
    (hunbound : node.engine.index.getShardBinding shard = none)
    (hfresh : ∀ blob, node.engine.index.getBlob ⟨shard, createTs⟩ blob = none) :
    Keeps { node with
      engine := node.engine.performAll (installPlan shard createTs .Writable) } := by
  refine ⟨h.tidy.install shard createTs .Writable, ?_, ?_, h.deleted⟩
  · intro extent hmem
    dsimp only at hmem ⊢
    rw [writers_installPlan] at hmem
    rw [IsBound, DiskIndex.getShardBinding, binding_installPlan]
    rcases Finset.mem_insert.mp hmem with rfl | hmem
    · rw [if_pos rfl]
    · have hbound := h.writers extent hmem
      rw [if_neg]
      · exact hbound
      · intro hslot
        rw [DiskIndex.getShardBinding, hslot] at hunbound
        rw [IsBound, DiskIndex.getShardBinding, hunbound] at hbound
        exact absurd hbound (by simp)
  · intro slot
    by_cases hslot : shardPrefix shard = slot
    · subst hslot
      refine SlotKept.of_fresh (serves_installPlan _ _ _ _ (by decide)) ?_ ?_
      · intro blob
        rw [getBlob_installPlan]
        exact hfresh blob
      · rcases h.slots (shardPrefix shard) with ⟨-, hempty⟩ | ⟨extent, hserves, -⟩
        · exact hempty
        · rw [DiskIndex.getShardBinding, hserves.bound] at hunbound
          exact absurd hunbound (by simp)
    · refine (h.slots slot).carries (fun _ => rfl) ?_ ?_
      · rw [binding_installPlan, if_neg hslot]
        exact id
      · intro extent hserves
        exact ⟨extent, hserves.carries_installPlan shard createTs .Writable hslot⟩

/-- A file without entries can go. -/
lemma Keeps.trash (h : Keeps node)
    (hunbound : node.engine.index.getShardBinding extent.shardId = none)
    (hfresh : ∀ blob, node.engine.index.getBlob extent blob = none) :
    Keeps { node with engine := node.engine.perform (.moveToTrash extent) } := by
  refine ⟨h.tidy.trash hfresh, h.writers, ?_, h.deleted⟩
  intro slot
  refine (h.slots slot).carries (fun _ => rfl) id ?_
  intro extent' hserves
  refine ⟨extent', hserves.carries_untouched (untouched_perform ?_ _) rfl⟩
  rw [EngineAction.touches, List.mem_singleton]
  rintro rfl
  rw [hserves.isBound] at hunbound
  exact absurd hunbound (by simp)

lemma Keeps.create {node : DataNode} (h : Keeps node) {shard : ShardId} {createTs : Int64}
    (hresp : node.engine.index.getShardBinding shard = none
      ∨ (node.engine.files.get ⟨shard, createTs⟩).isSome
        ∧ (node.engine.index.getExtentMeta ⟨shard, createTs⟩).isSome) :
    Keeps { node with
      engine := node.engine.performAll (node.engine.createPlan shard createTs .Writable) } := by
  rcases h.tidy.create_cases shard createTs .Writable with
    ⟨-, -, hplan⟩ | ⟨hfresh, hplan⟩
  · rw [hplan]
    exact h
  -- the extent is not installed, so the slot is unbound
  have hunbound : node.engine.index.getShardBinding shard = none := by
    rcases hresp with hunbound | ⟨hfile, hmeta⟩
    · exact hunbound
    · have hnil := createPlan_of_installed .Writable hfile hmeta
      rw [hnil] at hplan
      rcases hplan with hplan | hplan <;> exact absurd hplan.symm (by simp [installPlan])
  rcases hplan with hplan | hplan
  · rw [hplan]
    exact h.install hunbound hfresh
  · rw [hplan]
    exact (h.trash hunbound hfresh).install hunbound hfresh

/-! ### Writes and deletes -/

lemma unobserved_appendPlan (crc32c : Bytes → UInt32) (extent : ExtentId) (f : Stream)
    (r : Record) : ∀ a ∈ appendPlan crc32c extent f r, Unobserved a := by
  intro a ha
  refine ⟨fun slot => (touches_appendPlan crc32c ha).2 slot, ?_⟩
  simp only [appendPlan, List.mem_cons, List.not_mem_nil, or_false] at ha
  rcases ha with rfl | rfl
  · exact fun _ => rfl
  · exact fun _ => rfl

/-- A slot gets a record of a blob that has no entry. -/
lemma SlotKept.append (h : SlotKept engine kept slot) {f : Stream} {r : Record}
    (crc32c : Bytes → UInt32) (hbound : engine.index.bindings.get slot = some extent)
    (hfile : engine.files.get extent = some f) (hacc : f.accepts r.body = true) :
    SlotKept (engine.performAll (appendPlan crc32c extent f r))
      (kept.insert (toLex (slot, r.blobId)) r.body) slot := by
  obtain ⟨hserves, hall⟩ := h.of_writer hbound
  refine Or.inr ⟨extent, hserves.appendPlan crc32c f r, fun blob => ?_⟩
  rw [OrdMap.get_insert]
  by_cases heq : blob = r.blobId
  · subst heq
    rw [if_pos rfl]
    obtain ⟨m, hm, -⟩ := hserves.own
    refine ⟨?_, by simp⟩
    intro body hbody
    obtain rfl := Option.some.inj hbody
    exact live_appendPlan crc32c hfile (by simp [hm]) hacc
  · rw [if_neg fun hkey => heq (Prod.mk.inj (toLex_inj.mp hkey)).2.symm]
    refine ⟨fun body hbody => ((hall blob).1 body hbody).appendPlan crc32c hfile hacc heq, ?_⟩
    intro hnone entry
    rw [getBlob_appendPlan, if_neg heq]
    exact (hall blob).2 hnone entry

lemma Keeps.write (h : Keeps node) (crc32c : Bytes → UInt32) (createTs : ShardId → Int64)
    {blob : BlobId} {body : Bytes}
    (hresp : ∀ entry ∈ node.engine.index.getBlob extent blob, entry.isTombstoned = false) :
    Keeps (node.step crc32c createTs (.write extent blob body)) := by
  rcases writePlan_cases crc32c node.engine extent blob body with
    ⟨err, hplan⟩ | ⟨hwriter, hmeta, ⟨entry, hget, hplan⟩ | ⟨f, hget, hfile, hacc, hplan⟩⟩
  · simp only [step, hplan]
    exact h
  · -- the entry is not tombstoned, so the blob is kept already
    have hbound := h.writers extent hwriter
    obtain ⟨-, hall⟩ := (h.slots _).of_writer hbound
    have hkept : (node.kept.get (toLex (shardPrefix extent.shardId, blob))).isSome := by
      rw [Option.isSome_iff_ne_none]
      intro hnone
      have hdead := (hall blob).2 hnone entry hget
      rw [hresp entry hget] at hdead
      exact absurd hdead (by decide)
    simp only [step, hplan, performAll_nil, hkept, if_true]
    exact ⟨h.tidy, h.writers, h.slots,
      fun key hmem => h.deleted key (Finset.mem_of_mem_erase hmem)⟩
  · have hbound := h.writers extent hwriter
    obtain ⟨-, hall⟩ := (h.slots _).of_writer hbound
    have hnew : node.kept.get (toLex (shardPrefix extent.shardId, blob)) = none := by
      cases hkept : node.kept.get (toLex (shardPrefix extent.shardId, blob)) with
      | none => rfl
      | some body' =>
        obtain ⟨entry, r, hreads, -⟩ := (hall blob).1 body' hkept
        rw [hreads.entry_eq] at hget
        exact absurd hget (by simp)
    simp only [step, hplan, hnew, Option.isSome_none, Bool.false_eq_true, if_false]
    refine ⟨h.tidy.appendPlan crc32c hfile hmeta _,
      h.writers.performAll (unobserved_appendPlan crc32c extent f _), ?_, ?_⟩
    · intro slot
      by_cases hslot : shardPrefix extent.shardId = slot
      · subst hslot
        exact (h.slots _).append crc32c hbound hfile hacc
      · refine (h.slots slot).performAll ?_ ?_ ?_
        · intro blob'
          rw [OrdMap.get_insert, if_neg fun hkey => hslot (Prod.mk.inj (toLex_inj.mp hkey)).1]
        · intro a ha e he
          rw [(touches_appendPlan crc32c ha).1, List.mem_singleton] at he
          rw [he]
          exact hslot
        · exact fun a ha => (touches_appendPlan crc32c ha).2 slot
    · intro key hmem
      obtain ⟨hne, hmem⟩ := Finset.mem_erase.mp hmem
      rw [OrdMap.get_insert, if_neg fun hkey => hne (toLex_inj.mp hkey).symm]
      exact h.deleted key hmem

lemma Keeps.delete (h : Keeps node) (crc32c : Bytes → UInt32) (createTs : ShardId → Int64)
    (extent : ExtentId) (blob : BlobId) :
    Keeps (node.step crc32c createTs (.delete extent blob)) := by
  have hkept : ∀ slot blob', ¬(slot = shardPrefix extent.shardId ∧ blob' = blob) →
      (node.kept.erase (toLex (shardPrefix extent.shardId, blob))).get (toLex (slot, blob'))
        = node.kept.get (toLex (slot, blob')) := by
    intro slot blob' hne
    rw [OrdMap.get_erase, if_neg]
    intro hkey
    obtain ⟨hslot, hblob⟩ := Prod.mk.inj (toLex_inj.mp hkey)
    exact hne ⟨hslot.symm, hblob.symm⟩
  have htarget : shardPrefix
      ((node.engine.index.getShardBinding extent.shardId).getD extent).shardId
        = shardPrefix extent.shardId := by
    rcases h.slots (shardPrefix extent.shardId) with ⟨hnone, -⟩ | ⟨extent', hserves, -⟩
    · rw [DiskIndex.getShardBinding, hnone, Option.getD_none]
    · rw [DiskIndex.getShardBinding, hserves.bound, Option.getD_some]
      exact hserves.slot_eq
  have hun : ∀ a ∈ node.engine.deletePlan extent blob, Unobserved a := by
    intro a ha
    rw [List.mem_singleton.mp ha]
    exact ⟨fun _ _ => rfl, fun _ => rfl⟩
  refine ⟨h.tidy.perform (a := .tombstoneBlob _ blob) trivial, h.writers.performAll hun, ?_, ?_⟩
  · intro slot
    by_cases hslot : slot = shardPrefix extent.shardId
    · subst hslot
      rcases h.slots (shardPrefix extent.shardId) with ⟨hnone, hempty⟩ | ⟨extent', hserves, hall⟩
      · refine Or.inl ⟨?_, fun blob' => ?_⟩
        · exact (binding_performAll (fun a ha => (hun a ha).1 _) node.engine).trans hnone
        · exact (OrdMap.get_erase _ _ _).trans (by rw [hempty, ite_self])
      · have hplan : node.engine.deletePlan extent blob = [.tombstoneBlob extent' blob] := by
          rw [deletePlan, DiskIndex.getShardBinding, hserves.bound, Option.getD_some]
        simp only [DataNode.step, hplan, performAll_cons, performAll_nil]
        refine Or.inr ⟨extent', hserves.tombstone, fun blob' => ?_⟩
        by_cases heq : blob' = blob
        · subst heq
          exact ⟨by simp, fun _ => dead_tombstone⟩
        · rw [hkept _ _ fun hboth => heq hboth.2]
          exact ⟨fun body hbody => ((hall blob').1 body hbody).tombstone heq,
            fun hnone => ((hall blob').2 hnone).tombstone⟩
    · refine (h.slots slot).performAll (fun blob' => hkept _ _ fun hboth => hslot hboth.1) ?_
        fun a ha => (hun a ha).1 slot
      intro a ha e he
      rw [List.mem_singleton.mp ha, EngineAction.touches, List.mem_singleton] at he
      rw [he, htarget]
      exact Ne.symm hslot
  · intro key hmem
    show (node.kept.erase _).get _ = _
    rcases Finset.mem_insert.mp hmem with rfl | hmem
    · rw [OrdMap.get_erase, if_pos rfl]
    · rw [OrdMap.get_erase, h.deleted key hmem, ite_self]

lemma Keeps.step {a : DataNodeStep} (h : Keeps node) (crc32c : Bytes → UInt32)
    (createTs : ShardId → Int64) (hresp : node.Respects createTs a) :
    Keeps (node.step crc32c createTs a) := by
  cases a with
  | createExtent shard => exact h.create hresp
  | write extent blob body => exact h.write crc32c createTs hresp
  | delete extent blob => exact h.delete crc32c createTs extent blob
  | sweep ratioPercent perSweep clock =>
    refine ⟨h.tidy.sweep crc32c ratioPercent perSweep clock,
      h.writers.sweep crc32c h.tidy ratioPercent perSweep clock, ?_, h.deleted⟩
    intro slot
    refine (h.slots slot).carries (fun _ => rfl) ?_ ?_
    · intro hnone
      exact h.tidy.unbound_sweep crc32c hnone ratioPercent perSweep clock
    · intro extent hserves
      exact hserves.carries_sweep crc32c h.tidy ratioPercent perSweep clock

end DataNode

/-- A data node keeps what it acknowledged: while no creation meets a bound slot whose extent is not
the one to be created, and no write a tombstoned entry, every accepted and not deleted blob is read
with the body of its first accepted write, and every deleted one is not live. -/
theorem node_keeps_acknowledged (crc32c : Bytes → UInt32) (createTs : ShardId → Int64)
    {steps : List DataNodeStep}
    (h : Along (DataNode.step crc32c createTs) (DataNode.Respects createTs) .empty steps) :
    (∀ shard blob body,
        (run (DataNode.step crc32c createTs) .empty steps).kept.get
            (toLex (shardPrefix shard, blob)) = some body →
          (run (DataNode.step crc32c createTs) .empty steps).engine.readShard shard blob
            = .ok (some body))
      ∧ ∀ shard blob,
          (shardPrefix shard, blob) ∈ (run (DataNode.step crc32c createTs) .empty steps).deleted →
            ∀ extent, (run (DataNode.step crc32c createTs) .empty
                steps).engine.index.getShardBinding shard = some extent →
              ∀ entry, (run (DataNode.step crc32c createTs) .empty
                  steps).engine.index.getBlob extent blob = some entry →
                entry.isTombstoned = true := by
  have hkeeps : DataNode.Keeps (run (DataNode.step crc32c createTs) .empty steps) :=
    Along.invariant (fun node a hnode hresp => hnode.step crc32c createTs hresp)
      DataNode.keeps_empty h
  generalize run (DataNode.step crc32c createTs) .empty steps = node at hkeeps
  refine ⟨?_, ?_⟩
  · intro shard blob body hbody
    rcases hkeeps.slots (shardPrefix shard) with ⟨-, hempty⟩ | ⟨extent, hserves, hall⟩
    · rw [hempty] at hbody
      exact absurd hbody (by simp)
    · exact ((hall blob).1 body hbody).readShard hserves.bound
  · intro shard blob hmem extent hbound
    obtain ⟨-, hall⟩ := (hkeeps.slots (shardPrefix shard)).of_writer hbound
    exact (hall blob).2 (hkeeps.deleted _ hmem)

/-- Two writes and a delete; the sweep moves what is left to a new extent. -/
def compactedRun : List DataNodeStep :=
  [.createExtent 1, .write ⟨1, 5⟩ 10 [1], .write ⟨1, 5⟩ 11 [2], .delete ⟨1, 5⟩ 10,
    .sweep 30 8 fun _ => 6]

theorem node_keeps_acknowledged_demo :
    Along (DataNode.step (fun _ => 0) fun _ => 5) (DataNode.Respects fun _ => 5) .empty compactedRun
      ∧ (run (DataNode.step (fun _ => 0) fun _ => 5) .empty compactedRun).engine.readShard 1 11
        = .ok (some [2]) := by
  have h : Along (DataNode.step (fun _ => 0) fun _ => 5) (DataNode.Respects fun _ => 5) .empty
      compactedRun := by decide +kernel
  exact ⟨h, (node_keeps_acknowledged (fun _ => 0) (fun _ => 5) h).1 1 11 [2] (by decide +kernel)⟩

/-- The creation of the extent is delivered once more after the compaction: the slot is bound to a
new and empty extent, and the next sweep removes the one with the blob. -/
theorem repeated_create_loses_blobs :
    (run (DataNode.step (fun _ => 0) fun _ => 5) .empty
        (compactedRun ++ [.createExtent 1])).kept.get (toLex (shardPrefix 1, 11)) = some [2]
      ∧ (run (DataNode.step (fun _ => 0) fun _ => 5) .empty
        (compactedRun ++ [.createExtent 1])).engine.readShard 1 11 = .ok none
      ∧ (run (DataNode.step (fun _ => 0) fun _ => 5) .empty
        (compactedRun ++ [.createExtent 1, .sweep 30 8 fun _ => 7])).engine.files.get ⟨1, 6⟩
          = none := by
  decide +kernel

end Epoch
