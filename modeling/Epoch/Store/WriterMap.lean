import Epoch.Store.Engine

/-!
# A writable extent has a writer (`service.rs`)

Three things register and release writers: the creation of an extent, the open of a disk and a
compaction.  Promotion changes a status without looking at the writers, and the open registers none
for a rebuilding extent, so an extent that is promoted after a restart is offered to clients and
refuses every write (`promoted_without_writer`).  A compaction releases the source's writer before
its first check, and gives the destination one only at its very end.

`writable_extent_has_writer` says when a writable extent has a writer.  Inside a compaction one extent is exempted:
first the source, until it is paused, and then the destination, from the rebind on.
-/

namespace Epoch

inductive EngineStep
  | createExtent (shard : ShardId) (createTs : Int64)
  | createRebuilding (shard : ShardId) (createTs : Int64)
  | promote (extent : ExtentId)
  | sealExtent (extent : ExtentId)
  -- the compaction stops after this many actions, the release of the writer not counted
  | compact (source : ExtentId) (newTs : Int64) (stop : ℕ)
  | reopen (order : List ExtentId)
deriving DecidableEq

namespace StorageEngine

section

variable (crc32c : Bytes → UInt32)

/-- The actions a compaction takes. -/
def compactTaken (engine : StorageEngine) (source : ExtentId) (newTs : Int64) (stop : ℕ) :
    List EngineAction :=
  (compactPlan crc32c engine source newTs).take (stop + 1)

def engineStep (engine : StorageEngine) : EngineStep → StorageEngine
  | .createExtent shard createTs => engine.performAll (engine.createPlan shard createTs .Writable)
  | .createRebuilding shard createTs =>
    engine.performAll (engine.createPlan shard createTs .Rebuilding)
  | .promote extent => engine.performAll (engine.promotePlan extent)
  | .sealExtent extent => engine.performAll (engine.sealPlan extent)
  | .compact source newTs stop =>
    engine.performAll (compactTaken crc32c engine source newTs stop)
  | .reopen order => engine.reopen crc32c order

/-- An open lists every extent file. -/
def ListsFiles (engine : StorageEngine) : EngineStep → Prop
  | .reopen order => order.Perm (engine.files.toList.map Prod.fst)
  | _ => True

/-- The slot of an extent is bound to it. -/
def IsBound (engine : StorageEngine) (extent : ExtentId) : Prop :=
  engine.index.getShardBinding extent.shardId = some extent

instance (engine : StorageEngine) (extent : ExtentId) : Decidable (engine.IsBound extent) :=
  inferInstanceAs (Decidable (_ = _))

/-- The condition on a step: a bound rebuilding extent that is promoted has a writer, and a compaction
does not stop while a bound writable source is not paused yet, nor between the rebind and its end. -/
def KeepsWriter (engine : StorageEngine) : EngineStep → Prop
  | .promote extent =>
    engine.status extent = some .Rebuilding → engine.IsBound extent → extent ∈ engine.writers
  | .compact source newTs stop =>
    (engine.status source = some .Writable → engine.IsBound source → 1 ≤ stop)
      ∧ (.swapShardBinding source.shardId ⟨source.shardId, newTs⟩ source
          ∈ compactTaken crc32c engine source newTs stop →
        (compactPlan crc32c engine source newTs).length ≤ stop + 1)
  | _ => True

instance (engine : StorageEngine) (a : EngineStep) : Decidable (engine.ListsFiles a) := by
  cases a with
  | reopen order => exact inferInstanceAs (Decidable (order.Perm _))
  | _ => exact inferInstanceAs (Decidable True)

instance (engine : StorageEngine) (a : EngineStep) : Decidable (engine.KeepsWriter crc32c a) := by
  cases a with
  | promote extent => exact inferInstanceAs (Decidable (_ → _ → _))
  | compact source newTs stop => exact inferInstanceAs (Decidable ((_ → _ → _) ∧ (_ → _)))
  | _ => exact inferInstanceAs (Decidable True)

end

/-! ## The invariant -/

/-- Bindings lead to extents of their slot with a file and metadata, which names its extent's
shard. -/
structure Anchored (engine : StorageEngine) : Prop where
  file : ∀ slot extent, engine.index.bindings.get slot = some extent →
    (engine.files.get extent).isSome
  known : ∀ slot extent, engine.index.bindings.get slot = some extent →
    (engine.status extent).isSome
  slot : ∀ slot extent, engine.index.bindings.get slot = some extent →
    shardPrefix extent.shardId = slot
  owner : ∀ extent m, engine.index.getExtentMeta extent = some m → m.shardId = extent.shardId

/-- Every bound writable extent but the exempted ones has a writer, and writers belong to extents that
take writes. -/
structure Served (exempt : Set ExtentId) (engine : StorageEngine) : Prop extends Anchored engine where
  writer : ∀ slot extent, engine.index.bindings.get slot = some extent →
    engine.status extent = some .Writable → extent ∈ engine.writers ∨ extent ∈ exempt
  active : ∀ extent ∈ engine.writers,
    engine.status extent = some .Writable ∨ engine.status extent = some .Rebuilding

/-- What an action needs to keep bindings and metadata in order. -/
def Anchors (engine : StorageEngine) : EngineAction → Prop
  | .putExtentMeta extent m => m.shardId = extent.shardId
  | .installExtent extent m _ =>
    m.shardId = extent.shardId ∧ (engine.files.get extent).isSome
  | .swapShardBinding shard newExtent _ =>
    shardPrefix newExtent.shardId = shardPrefix shard ∧ (engine.files.get newExtent).isSome
      ∧ (engine.status newExtent).isSome
  | .moveToTrash extent | .removeExtent extent =>
    ∀ slot, engine.index.bindings.get slot ≠ some extent
  | _ => True

variable {extent : ExtentId} {a : EngineAction} {engine : StorageEngine}

lemma isSome_touch {files : OrdMap ExtentId Stream} (h : (files.get extent).isSome)
    (ha : a ≠ .moveToTrash extent) :
    ((touch files a).get extent).isSome := by
  cases a with
  | createFile extent' =>
    rw [touch, OrdMap.get_insert]
    split_ifs
    · rfl
    · exact h
  | appendRecord extent' r =>
    rw [touch, OrdMap.get_insert]
    split_ifs
    · rfl
    · exact h
  | truncateTo extent' size =>
    rw [touch, OrdMap.get_insert]
    split_ifs
    · rfl
    · exact h
  | moveToTrash extent' =>
    rw [touch, OrdMap.get_erase, if_neg (by rintro rfl; exact ha rfl)]
    exact h
  | _ => exact h

lemma isSome_statusAfter {old : Option ExtentStatus} (h : old.isSome)
    (ha : a ≠ .removeExtent extent) : (statusAfter extent old a).isSome := by
  cases a with
  | putExtentMeta extent' m =>
    rw [statusAfter]
    split_ifs
    · rfl
    · exact h
  | installExtent extent' m blobs =>
    rw [statusAfter]
    split_ifs
    · rfl
    · exact h
  | setExtentStatus extent' status =>
    rw [statusAfter]
    split_ifs <;> simpa using h
  | swapShardBinding shard newExtent oldExtent =>
    rw [statusAfter]
    split_ifs <;> simpa using h
  | removeExtent extent' =>
    rw [statusAfter, if_neg (by rintro rfl; exact ha rfl)]
    exact h
  | _ => exact h

/-- A binding after an action is an old one, or the action made it. -/
lemma binding_cases {slot : UInt64} (h : (engine.perform a).index.bindings.get slot = some extent) :
    engine.index.bindings.get slot = some extent
      ∨ (∃ m blobs, a = .installExtent extent m blobs ∧ shardPrefix m.shardId = slot)
      ∨ ∃ shard oldExtent, a = .swapShardBinding shard extent oldExtent
          ∧ shardPrefix shard = slot := by
  rw [binding_perform] at h
  cases a with
  | installExtent extent' m blobs =>
    rw [bindingAfter] at h
    split_ifs at h with hslot
    · obtain rfl := Option.some.inj h
      exact Or.inr (Or.inl ⟨m, blobs, rfl, hslot⟩)
    · exact Or.inl h
  | swapShardBinding shard newExtent oldExtent =>
    rw [bindingAfter] at h
    split_ifs at h with hslot
    · obtain rfl := Option.some.inj h
      exact Or.inr (Or.inr ⟨shard, oldExtent, rfl, hslot⟩)
    · exact Or.inl h
  | _ => exact Or.inl h

lemma Anchored.perform (h : Anchored engine) (ha : engine.Anchors a) :
    Anchored (engine.perform a) := by
  refine ⟨?_, ?_, ?_, ?_⟩
  · intro slot extent hbind
    rcases binding_cases hbind with hold | ⟨m, blobs, rfl, -⟩ | ⟨shard, oldExtent, rfl, -⟩
    · refine isSome_touch (h.file slot extent hold) ?_
      rintro rfl
      exact ha slot hold
    · exact ha.2
    · exact ha.2.1
  · intro slot extent hbind
    rw [status_perform]
    rcases binding_cases hbind with hold | ⟨m, blobs, rfl, -⟩ | ⟨shard, oldExtent, rfl, -⟩
    · refine isSome_statusAfter (h.known slot extent hold) ?_
      rintro rfl
      exact ha slot hold
    · simp [statusAfter]
    · exact isSome_statusAfter ha.2.2 (by simp)
  · intro slot extent hbind
    rcases binding_cases hbind with hold | ⟨m, blobs, rfl, hslot⟩ | ⟨shard, oldExtent, rfl, hslot⟩
    · exact h.slot slot extent hold
    · rw [← ha.1, hslot]
    · rw [ha.1, hslot]
  · intro extent m' hget
    rcases getExtentMeta_perform hget with ⟨m, hm, hshard⟩ | rfl | ⟨blobs, rfl⟩
    · exact hshard.trans (h.owner extent m hm)
    · exact ha
    · exact ha.1

/-- An extent is bound at its own slot or nowhere. -/
lemma Anchored.isBound (h : Anchored engine) {slot : UInt64}
    (hbind : engine.index.bindings.get slot = some extent) : engine.IsBound extent := by
  rw [IsBound, DiskIndex.getShardBinding, h.slot slot extent hbind]
  exact hbind

/-! ### Actions -/

section

variable {engine : StorageEngine} {exempt : Set ExtentId} {extent : ExtentId}

/-- Actions that leave statuses, bindings and writers alone. -/
def Quiet : EngineAction → Prop
  | .createFile _ | .appendRecord _ _ | .truncateTo _ _ | .moveToTrash _
  | .commitBlobs _ _ _ | .tombstoneBlob _ _ => True
  | _ => False

lemma Served.quiet (h : Served exempt engine) {a : EngineAction} (hq : Quiet a)
    (ha : engine.Anchors a) : Served exempt (engine.perform a) := by
  have hstatus : ∀ extent, (engine.perform a).status extent = engine.status extent := by
    intro extent
    rw [status_perform]
    cases a <;> first | rfl | exact hq.elim
  have hbind : ∀ slot, (engine.perform a).index.bindings.get slot
      = engine.index.bindings.get slot := by
    intro slot
    rw [binding_perform]
    cases a <;> first | rfl | exact hq.elim
  have hwriters : (engine.perform a).writers = engine.writers := by
    cases a <;> first | rfl | exact hq.elim
  refine ⟨h.toAnchored.perform ha, ?_, ?_⟩
  · intro slot extent
    rw [hbind, hstatus, hwriters]
    exact h.writer slot extent
  · intro extent
    rw [hstatus, hwriters]
    exact h.active extent

/-- Releasing a writer exempts its extent. -/
lemma Served.stop (h : Served exempt engine) (extent : ExtentId) :
    Served (insert extent exempt) (engine.perform (.stopWriter extent)) := by
  refine ⟨h.toAnchored.perform trivial, ?_, ?_⟩
  · intro slot extent' hbind hstatus
    rw [binding_perform] at hbind
    rw [status_perform] at hstatus
    by_cases heq : extent' = extent
    · exact Or.inr (Or.inl heq)
    · rcases h.writer slot extent' hbind hstatus with hmem | hmem
      · exact Or.inl (Finset.mem_erase.mpr ⟨heq, hmem⟩)
      · exact Or.inr (Or.inr hmem)
  · intro extent' hmem
    rw [status_perform]
    exact h.active extent' (Finset.mem_of_mem_erase hmem)

/-- A registered writer ends the exemption. -/
lemma Served.spawn (h : Served (insert extent exempt) engine)
    (hactive : engine.status extent = some .Writable ∨ engine.status extent = some .Rebuilding) :
    Served exempt (engine.perform (.spawnWriter extent)) := by
  refine ⟨h.toAnchored.perform trivial, ?_, ?_⟩
  · intro slot extent' hbind hstatus
    rw [binding_perform] at hbind
    rw [status_perform] at hstatus
    rcases h.writer slot extent' hbind hstatus with hmem | rfl | hmem
    · exact Or.inl (Finset.mem_insert_of_mem hmem)
    · exact Or.inl (Finset.mem_insert_self _ _)
    · exact Or.inr hmem
  · intro extent' hmem
    rw [status_perform]
    rcases Finset.mem_insert.mp hmem with rfl | hmem
    · exact hactive
    · exact h.active extent' hmem

/-- So does a status that takes no writes. -/
lemma Served.pause (h : Served (insert extent exempt) engine) (hstopped : extent ∉ engine.writers)
    {status : ExtentStatus} (hne : status ≠ .Writable) :
    Served exempt (engine.perform (.setExtentStatus extent status)) := by
  refine ⟨h.toAnchored.perform trivial, ?_, ?_⟩
  · intro slot extent' hbind hstatus
    rw [binding_perform] at hbind
    rw [status_perform, statusAfter] at hstatus
    split_ifs at hstatus with heq
    · obtain ⟨_, -, hst⟩ := Option.map_eq_some_iff.mp hstatus
      exact absurd hst hne
    · rcases h.writer slot extent' hbind hstatus with hmem | rfl | hmem
      · exact Or.inl hmem
      · exact absurd rfl heq
      · exact Or.inr hmem
  · intro extent' hmem
    have hne' : extent ≠ extent' := by
      rintro rfl
      exact hstopped hmem
    rw [status_perform, statusAfter, if_neg hne']
    exact h.active extent' hmem

lemma Served.promoted (h : Served exempt engine) (hreb : engine.status extent = some .Rebuilding)
    (hwriter : engine.IsBound extent → extent ∈ engine.writers) :
    Served exempt (engine.perform (.setExtentStatus extent .Writable)) := by
  refine ⟨h.toAnchored.perform trivial, ?_, ?_⟩
  · intro slot extent' hbind hstatus
    rw [binding_perform] at hbind
    rw [status_perform, statusAfter] at hstatus
    split_ifs at hstatus with heq
    · subst heq
      exact Or.inl (hwriter (h.toAnchored.isBound hbind))
    · exact h.writer slot extent' hbind hstatus
  · intro extent' hmem
    rw [status_perform, statusAfter]
    split_ifs with heq
    · subst heq
      rw [hreb]
      exact Or.inl rfl
    · exact h.active extent' hmem

/-- Metadata for an extent that no slot is bound to. -/
lemma Served.putMeta (h : Served exempt engine)
    (hfree : ∀ slot, engine.index.bindings.get slot ≠ some extent) (createTs : Int64) :
    Served exempt (engine.perform
      (.putExtentMeta extent (DiskIndex.freshMeta extent.shardId .Writable createTs))) := by
  refine ⟨h.toAnchored.perform rfl, ?_, ?_⟩
  · intro slot extent' hbind hstatus
    rw [binding_perform] at hbind
    have hne : extent ≠ extent' := by
      rintro rfl
      exact hfree slot hbind
    rw [status_perform, statusAfter, if_neg hne] at hstatus
    exact h.writer slot extent' hbind hstatus
  · intro extent' hmem
    rw [status_perform, statusAfter]
    split_ifs
    · exact Or.inl rfl
    · exact h.active extent' hmem

/-- An installed extent is exempted until it has its writer. -/
lemma Served.install (h : Served exempt engine) (extent : ExtentId)
    (hfile : (engine.files.get extent).isSome) {m : ExtentMeta} (hshard : m.shardId = extent.shardId)
    (hst : m.status = .Writable ∨ m.status = .Rebuilding) (blobs : List (BlobId × BlobIndex)) :
    Served (insert extent exempt) (engine.perform (.installExtent extent m blobs)) := by
  refine ⟨h.toAnchored.perform ⟨hshard, hfile⟩, ?_, ?_⟩
  · intro slot extent' hbind hstatus
    by_cases heq : extent = extent'
    · exact Or.inr (Or.inl heq.symm)
    · rw [binding_perform, bindingAfter] at hbind
      rw [status_perform, statusAfter, if_neg heq] at hstatus
      split_ifs at hbind
      · exact absurd (Option.some.inj hbind) heq
      · rcases h.writer slot extent' hbind hstatus with hmem | hmem
        · exact Or.inl hmem
        · exact Or.inr (Or.inr hmem)
  · intro extent' hmem
    rw [status_perform, statusAfter]
    split_ifs
    · rcases hst with hst | hst <;> simp [hst]
    · exact h.active extent' hmem

/-- The rebind exempts the destination; the source has no writer any more. -/
lemma Served.swap (h : Served exempt engine) {source : ExtentId}
    (hfile : (engine.files.get extent).isSome) (hknown : (engine.status extent).isSome)
    (hshard : extent.shardId = source.shardId) (hstopped : source ∉ engine.writers) :
    Served (insert extent exempt)
      (engine.perform (.swapShardBinding source.shardId extent source)) := by
  refine ⟨h.toAnchored.perform ⟨by rw [hshard], hfile, hknown⟩, ?_, ?_⟩
  · intro slot extent' hbind hstatus
    rw [binding_perform, bindingAfter] at hbind
    rw [status_perform, statusAfter] at hstatus
    split_ifs at hbind hstatus
    · exact Or.inr (Or.inl (Option.some.inj hbind).symm)
    · exact Or.inr (Or.inl (Option.some.inj hbind).symm)
    · obtain ⟨_, -, hst⟩ := Option.map_eq_some_iff.mp hstatus
      exact absurd hst (by simp)
    · rcases h.writer slot extent' hbind hstatus with hmem | hmem
      · exact Or.inl hmem
      · exact Or.inr (Or.inr hmem)
  · intro extent' hmem
    have hne : source ≠ extent' := by
      rintro rfl
      exact hstopped hmem
    rw [status_perform, statusAfter, if_neg hne]
    exact h.active extent' hmem

lemma Served.remove (h : Served exempt engine) (extent : ExtentId)
    (hfree : ∀ slot, engine.index.bindings.get slot ≠ some extent)
    (hstopped : extent ∉ engine.writers) :
    Served exempt (engine.perform (.removeExtent extent)) := by
  refine ⟨h.toAnchored.perform hfree, ?_, ?_⟩
  · intro slot extent' hbind hstatus
    rw [binding_perform] at hbind
    rw [status_perform, statusAfter] at hstatus
    split_ifs at hstatus
    exact h.writer slot extent' hbind hstatus
  · intro extent' hmem
    have hne : extent ≠ extent' := by
      rintro rfl
      exact hstopped hmem
    rw [status_perform, statusAfter, if_neg hne]
    exact h.active extent' hmem

end

/-! ### Operations -/

section

variable {engine : StorageEngine} {extent : ExtentId}

/-- An extent without metadata is not bound. -/
lemma Anchored.not_bound (h : Anchored engine) (hnone : engine.status extent = none)
    (slot : UInt64) : engine.index.bindings.get slot ≠ some extent := by
  intro hbind
  simpa [hnone] using h.known slot extent hbind

/-- An exempted extent that is bound and writable nowhere needs no exemption. -/
lemma Served.settle (h : Served (insert extent ∅) engine)
    (hidle : engine.status extent = some .Writable → ¬engine.IsBound extent) :
    Served ∅ engine := by
  refine ⟨h.toAnchored, ?_, h.active⟩
  intro slot extent' hbind hstatus
  rcases h.writer slot extent' hbind hstatus with hmem | rfl | hmem
  · exact Or.inl hmem
  · exact absurd (h.toAnchored.isBound hbind) (hidle hstatus)
  · exact Or.inr hmem

lemma Served.created (h : Served ∅ engine) (shard : ShardId) (createTs : Int64)
    {status : ExtentStatus} (hst : status = .Writable ∨ status = .Rebuilding) :
    Served ∅ (engine.performAll (installPlan shard createTs status)) := by
  have hfile := h.quiet (a := .createFile ⟨shard, createTs⟩) trivial trivial
  have hinstall := hfile.install ⟨shard, createTs⟩
    (m := DiskIndex.freshMeta shard status createTs) (by simp [perform, touch]) rfl hst []
  refine hinstall.spawn ?_
  rw [status_perform, statusAfter, if_pos rfl]
  rcases hst with rfl | rfl
  · exact Or.inl rfl
  · exact Or.inr rfl

lemma Served.create (h : Served ∅ engine) (shard : ShardId) (createTs : Int64)
    {status : ExtentStatus} (hst : status = .Writable ∨ status = .Rebuilding) :
    Served ∅ (engine.performAll (engine.createPlan shard createTs status)) := by
  unfold createPlan
  cases hfile : engine.files.get ⟨shard, createTs⟩ with
  | none => exact h.created shard createTs hst
  | some f =>
    cases hmeta : engine.index.getExtentMeta ⟨shard, createTs⟩ with
    | some m => exact h
    | none =>
      -- a file without metadata is bound to no slot
      have hnone : engine.status ⟨shard, createTs⟩ = none := by simp [StorageEngine.status, hmeta]
      have htrash := h.quiet (a := .moveToTrash ⟨shard, createTs⟩) trivial
        (h.toAnchored.not_bound hnone)
      exact htrash.created shard createTs hst

lemma Served.promote (h : Served ∅ engine)
    (hwriter : engine.status extent = some .Rebuilding → engine.IsBound extent →
      extent ∈ engine.writers) :
    Served ∅ (engine.performAll (engine.promotePlan extent)) := by
  unfold promotePlan
  split_ifs with hreb
  · exact h.promoted hreb (hwriter hreb)
  · exact h

lemma Served.sealed (h : Served ∅ engine) (extent : ExtentId) :
    Served ∅ (engine.performAll (engine.sealPlan extent)) := by
  unfold sealPlan
  split_ifs
  · have hstop := h.stop extent
    exact hstop.pause (by simp [perform, register]) (by simp)
  · exact h

/-! ### Compaction -/

/-- What a compaction keeps while it fills its destination. -/
structure Rewriting (source newExtent : ExtentId) (engine : StorageEngine) : Prop where
  served : Served ∅ engine
  file : (engine.files.get newExtent).isSome
  status : engine.status newExtent = some .Writable
  stopped : source ∉ engine.writers

/-- The actions of the copy loop. -/
def Copies (newExtent : ExtentId) (a : EngineAction) : Prop :=
  (∃ r, a = .appendRecord newExtent r) ∨ ∃ blobs size, a = .commitBlobs newExtent blobs size

lemma copyPlan_copies (crc32c : Bytes → UInt32) (index : DiskIndex) (source : Stream)
    (newExtent : ExtentId) (dest : Stream) (live : List (BlobId × BlobIndex)) :
    ∀ a ∈ (copyPlan crc32c index source newExtent dest live).1, Copies newExtent a := by
  induction live generalizing dest with
  | nil => simp [copyPlan]
  | cons b live ih =>
    intro a ha
    unfold copyPlan at ha
    cases hread : source.readRecord b.2.offset.toNat with
    | none => simp [hread] at ha
    | some r =>
      simp only [hread] at ha
      split_ifs at ha
      · exact ih dest a ha
      · rcases List.mem_cons.mp ha with rfl | ha
        · exact Or.inl ⟨_, rfl⟩
        · rcases List.mem_cons.mp ha with rfl | ha
          · exact Or.inr ⟨_, _, rfl⟩
          · exact ih _ a ha
      · simp at ha

variable {source : ExtentId}

lemma Rewriting.copy {newExtent : ExtentId} (engine : StorageEngine) (a : EngineAction)
    (h : Rewriting source newExtent engine) (ha : Copies newExtent a) :
    Rewriting source newExtent (engine.perform a) := by
  rcases ha with ⟨r, rfl⟩ | ⟨blobs, size, rfl⟩
  · exact ⟨h.served.quiet trivial trivial, isSome_touch h.file (by simp),
      (status_perform _ _ _).trans h.status, h.stopped⟩
  · exact ⟨h.served.quiet trivial trivial, h.file, (status_perform _ _ _).trans h.status,
      h.stopped⟩

lemma Rewriting.rebind {newExtent : ExtentId} (h : Rewriting source newExtent engine)
    (hshard : newExtent.shardId = source.shardId) (hne : newExtent ≠ source) :
    Served ∅ (engine.performAll (rebindPlan source newExtent)) := by
  have hswap := h.served.swap h.file (by simp [h.status]) hshard h.stopped
  have hstatus : (engine.perform (.swapShardBinding source.shardId newExtent source)).status
      newExtent = some .Writable := by
    rw [status_perform, statusAfter, if_neg hne.symm]
    exact h.status
  -- the only slot that could be bound to the source is bound to the destination
  have hfree (slot : UInt64) : (engine.perform
      (.swapShardBinding source.shardId newExtent source)).index.bindings.get slot
        ≠ some source := by
    intro hbind
    have hslot := hswap.slot slot source hbind
    rw [binding_perform, bindingAfter, if_pos hslot] at hbind
    exact hne (Option.some.inj hbind)
  have htrash := hswap.quiet (a := .moveToTrash source) trivial hfree
  have hremove := htrash.remove source (fun slot => by
    rw [binding_perform]
    exact hfree slot) h.stopped
  refine hremove.spawn (Or.inl ?_)
  rw [status_perform, statusAfter, if_neg hne.symm, status_perform]
  exact hstatus

/-- Filling the destination keeps every writable extent served. -/
lemma Served.rewrite (h : Served ∅ engine) (newExtent : ExtentId)
    (hstopped : source ∉ engine.writers) (hshard : newExtent.shardId = source.shardId)
    (hnew : engine.files.get newExtent = none) (newTs : Int64) {copies : List EngineAction}
    (hcopies : ∀ a ∈ copies, Copies newExtent a) :
    Throughout perform (Served ∅) engine
        (.createFile newExtent
          :: .putExtentMeta newExtent (DiskIndex.freshMeta source.shardId .Writable newTs)
          :: copies)
      ∧ Rewriting source newExtent (engine.performAll
        (.createFile newExtent
          :: .putExtentMeta newExtent (DiskIndex.freshMeta source.shardId .Writable newTs)
          :: copies)) := by
  have hfree : ∀ slot, engine.index.bindings.get slot ≠ some newExtent := by
    intro slot hbind
    simpa [hnew] using h.file slot newExtent hbind
  have hcreate := h.quiet (a := .createFile newExtent) trivial trivial
  have hput := hcreate.putMeta hfree newTs
  rw [hshard] at hput
  have hrewriting : Rewriting source newExtent ((engine.perform (.createFile newExtent)).perform
      (.putExtentMeta newExtent (DiskIndex.freshMeta source.shardId .Writable newTs))) := by
    refine ⟨hput, by simp [perform, touch], ?_, hstopped⟩
    rw [status_perform, statusAfter, if_pos rfl]
    rfl
  have hall := throughout_of_preserved Rewriting.copy hrewriting hcopies
  exact ⟨⟨h, hcreate, hall.mono fun _ hr => hr.served⟩, hall.last⟩

variable (crc32c : Bytes → UInt32)

/-- A rewrite that pauses its source, and that does not stop between the rebind and its end. -/
lemma Served.compact_paused (h : Served (insert extent ∅) engine) (hstopped : extent ∉ engine.writers)
    (index : DiskIndex) (file : Stream) (newTs : Int64) (stop : ℕ)
    (hend : .swapShardBinding extent.shardId ⟨extent.shardId, newTs⟩ extent
        ∈ (rewritePlan crc32c ⟨index, engine.files, engine.writers⟩ extent file newTs).take
          (stop + 1) →
      (rewritePlan crc32c ⟨index, engine.files, engine.writers⟩ extent file newTs).length
        ≤ stop + 1)
    (hsource : (engine.files.get extent).isSome) :
    Served ∅ (engine.performAll ((rewritePlan crc32c ⟨index, engine.files, engine.writers⟩
      extent file newTs).take (stop + 1))) := by
  have hpaused : Served ∅ (engine.perform (.setExtentStatus extent .Full)) :=
    h.pause hstopped (by simp)
  unfold rewritePlan at hend ⊢
  by_cases hnew : (engine.files.get ⟨extent.shardId, newTs⟩).isSome
  · simpa [hnew] using hpaused
  · simp only [hnew, Bool.false_eq_true, if_false, List.take_succ_cons, performAll_cons] at hend ⊢
    have hne : (⟨extent.shardId, newTs⟩ : ExtentId) ≠ extent := by
      rintro heq
      rw [heq] at hnew
      exact hnew hsource
    obtain ⟨hthrough, hrewriting⟩ := hpaused.rewrite ⟨extent.shardId, newTs⟩ hstopped rfl
      (Option.not_isSome_iff_eq_none.mp hnew) newTs (copyPlan_copies crc32c index file ⟨extent.shardId, newTs⟩ [] (liveBlobs index extent))
    generalize (copyPlan crc32c index file ⟨extent.shardId, newTs⟩ []
      (liveBlobs index extent)).2 = ok at hend ⊢
    generalize hbody : EngineAction.createFile ⟨extent.shardId, newTs⟩ :: _ = body at *
    rw [List.take_append] at hend ⊢
    -- either the rebind is not reached, or all of the plan is taken
    by_cases hreach : stop ≤ body.length ∨ ok = false
    · have hnil : (if ok = true then rebindPlan extent ⟨extent.shardId, newTs⟩ else []).take
          (stop - body.length) = [] := by
        rcases hreach with hle | rfl
        · rw [Nat.sub_eq_zero_of_le hle, List.take_zero]
        · simp
      rw [hnil, List.append_nil]
      exact hthrough.run_take stop
    · rw [not_or] at hreach
      have hok : ok = true := by simpa using hreach.2
      subst hok
      obtain ⟨n, hn⟩ : ∃ n, stop - body.length = n + 1 := ⟨stop - body.length - 1, by omega⟩
      have hlen := hend (by simp [hn, rebindPlan])
      have hall : stop - body.length ≥ (rebindPlan extent ⟨extent.shardId, newTs⟩).length := by
        simp [List.length_append] at hlen
        omega
      rw [if_pos rfl, List.take_of_length_le hall, List.take_of_length_le (by omega),
        performAll_append]
      exact hrewriting.rebind rfl hne

lemma Served.compact (h : Served ∅ engine) (source : ExtentId) (newTs : Int64) (stop : ℕ)
    (hkeeps : engine.KeepsWriter crc32c (.compact source newTs stop)) :
    Served ∅ (engine.performAll (compactTaken crc32c engine source newTs stop)) := by
  have hstop := h.stop source
  have hstopped : source ∉ (engine.perform (.stopWriter source)).writers := by
    simp [perform, register]
  obtain ⟨hpause, hend⟩ := hkeeps
  -- the writer is released and the source still writable: then it is not bound
  have hearly : (engine.status source = some .Writable → ¬engine.IsBound source) →
      Served ∅ (engine.perform (.stopWriter source)) := by
    intro hidle
    refine hstop.settle ?_
    rw [status_perform]
    exact hidle
  unfold compactTaken at hend ⊢
  rcases compactPlan_cases crc32c engine source newTs with
    ⟨hplan, hrefused⟩ | ⟨file, hfile, hst, hplan⟩
  · rw [hplan, List.take_succ_cons, List.take_nil]
    refine hearly fun hwritable hbound => ?_
    rcases hrefused with hnone | hne
    · simpa [hnone] using h.file _ _ hbound
    · exact hne.1 hwritable
  · rw [hplan, List.take_succ_cons] at hend ⊢
    cases stop with
    | zero =>
      refine hearly fun hwritable hbound => ?_
      exact absurd (hpause hwritable hbound) (by decide)
    | succ n =>
      refine hstop.compact_paused crc32c hstopped engine.index file newTs n ?_ (by
        rw [show (engine.perform (.stopWriter source)).files = engine.files from rfl, hfile]
        rfl)
      intro hmem
      have hlen := hend (List.mem_cons_of_mem _ hmem)
      rw [List.length_cons] at hlen
      exact Nat.le_of_succ_le_succ hlen

end

/-! ### The open of a disk -/

section

variable (crc32c : Bytes → UInt32) {engine : StorageEngine}

/-- Recovery keeps the bindings in order and the set of files. -/
lemma Anchored.recover (h : Anchored engine) (extent : ExtentId) :
    Anchored (engine.performAll (recoverPlan crc32c engine extent))
      ∧ ∀ extent', ((engine.performAll (recoverPlan crc32c engine extent)).files.get
          extent').isSome = (engine.files.get extent').isSome := by
  unfold recoverPlan
  cases hfile : engine.files.get extent with
  | none => exact ⟨h, fun _ => rfl⟩
  | some f =>
    cases hmeta : engine.index.getExtentMeta extent with
    | some m =>
      simp only
      split_ifs
      · refine ⟨h.perform trivial, fun extent' => ?_⟩
        show ((engine.files.insert extent _).get extent').isSome = _
        rw [OrdMap.get_insert]
        split_ifs with heq
        · subst heq
          rw [hfile]
          rfl
        · rfl
      · exact ⟨h, fun _ => rfl⟩
    | none => exact ⟨h.perform ⟨rfl, by simp [hfile]⟩, fun _ => rfl⟩

lemma Anchored.recoverAll (h : Anchored engine) (order : List ExtentId) :
    Anchored (recoverAll crc32c engine order)
      ∧ ∀ extent, ((recoverAll crc32c engine order).files.get extent).isSome
        = (engine.files.get extent).isSome := by
  induction order generalizing engine with
  | nil => exact ⟨h, fun _ => rfl⟩
  | cons extent order ih =>
    obtain ⟨hone, hfiles⟩ := h.recover crc32c extent
    obtain ⟨hrest, hfiles'⟩ := ih hone
    exact ⟨hrest, fun extent' => (hfiles' extent').trans (hfiles extent')⟩

lemma bound_iff (h : Anchored engine) (extent : ExtentId) :
    engine.bound extent = true ↔ engine.status extent = some .Writable ∧ engine.IsBound extent := by
  unfold bound StorageEngine.status IsBound
  cases hmeta : engine.index.getExtentMeta extent with
  | none => simp
  | some m => simp [h.owner extent m hmeta]

lemma Anchored.reopened (h : Anchored engine) {order : List ExtentId}
    (horder : order.Perm (engine.files.toList.map Prod.fst)) :
    Served ∅ (engine.reopen crc32c order) := by
  have hclosed : Anchored { engine with writers := ∅ } := ⟨h.file, h.known, h.slot, h.owner⟩
  obtain ⟨hrec, hfiles⟩ := hclosed.recoverAll crc32c order
  unfold reopen
  generalize StorageEngine.recoverAll crc32c { engine with writers := ∅ } order = recovered at hrec hfiles
  refine ⟨⟨hrec.file, hrec.known, hrec.slot, hrec.owner⟩, ?_, ?_⟩
  · intro slot extent hbind hstatus
    have hmem : extent ∈ order := by
      have hsome : (engine.files.get extent).isSome :=
        (hfiles extent).symm.trans (hrec.file slot extent hbind)
      obtain ⟨f, hf⟩ := Option.isSome_iff_exists.mp hsome
      exact horder.mem_iff.mpr
        (List.mem_map.mpr ⟨(extent, f), (engine.files.mem_toList_iff _ _).mpr hf, rfl⟩)
    have hbound := (bound_iff hrec extent).mpr ⟨hstatus, hrec.isBound hbind⟩
    exact Or.inl (List.mem_toFinset.mpr (List.mem_filter.mpr ⟨hmem, hbound⟩))
  · intro extent hmem
    have hbound := (List.mem_filter.mp (List.mem_toFinset.mp hmem)).2
    exact Or.inl ((bound_iff hrec extent).mp hbound).1

/-! ## Runs -/

lemma served_engineStep (engine : StorageEngine) (a : EngineStep) (h : Served ∅ engine)
    (hlegal : engine.ListsFiles a ∧ engine.KeepsWriter crc32c a) :
    Served ∅ (engine.engineStep crc32c a) := by
  cases a with
  | createExtent shard createTs => exact h.create shard createTs (Or.inl rfl)
  | createRebuilding shard createTs => exact h.create shard createTs (Or.inr rfl)
  | promote extent => exact h.promote hlegal.2
  | sealExtent extent => exact h.sealed extent
  | compact source newTs stop => exact h.compact crc32c source newTs stop hlegal.2
  | reopen order => exact h.toAnchored.reopened crc32c hlegal.1

end

lemma served_empty : Served ∅ empty :=
  ⟨⟨by simp [empty, DiskIndex.empty], by simp [empty, DiskIndex.empty],
    by simp [empty, DiskIndex.empty], by simp [empty, DiskIndex.empty, DiskIndex.getExtentMeta]⟩,
    by simp [empty, DiskIndex.empty], by simp [empty]⟩

lemma writableExtent_eq_ok {shard : ShardId} (h : engine.writableExtent shard = .ok extent) :
    engine.index.getShardBinding shard = some extent
      ∧ engine.status extent = some .Writable := by
  unfold writableExtent at h
  cases hbind : engine.index.getShardBinding shard with
  | none => simp [hbind] at h
  | some extent' =>
    cases hmeta : engine.index.getExtentMeta extent' with
    | none => simp [hbind, hmeta] at h
    | some m =>
      simp only [hbind, hmeta] at h
      cases hst : m.status <;> simp [hst, writableGate] at h
      cases h
      exact ⟨rfl, by simp [StorageEngine.status, hmeta, hst]⟩

end StorageEngine

/-- Compactions that end, that fail after the pause and that are refused, an open, and a promotion. -/
def servedRun : List EngineStep :=
  [.createExtent 1 5, .compact ⟨1, 5⟩ 6 20, .createExtent 0x1000001 5, .compact ⟨0x1000001, 5⟩ 6 2,
    .reopen [⟨0x1000001, 6⟩, ⟨1, 6⟩, ⟨0x1000001, 5⟩], .createRebuilding 0x2000001 5,
    .promote ⟨0x2000001, 5⟩, .compact ⟨9, 9⟩ 1 0]

/-- A rebuilding extent that is promoted after an open of the disk. -/
def promotedRun : List EngineStep :=
  [.createRebuilding 1 5, .reopen [⟨1, 5⟩], .promote ⟨1, 5⟩]

end Epoch
