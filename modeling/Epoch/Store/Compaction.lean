import Epoch.Store.Durability

/-!
# A compaction and crashes (`compact.rs`)

The process crashes inside a compaction.  Synced batches are durable, and so is a created file; the
metadata of the destination is put without a sync and may be lost until a later batch is synced.

A crash in that window leaves a destination file without metadata.  The next open takes it for an
extent whose index was lost, installs it and binds the shard to it, and the orphan sweep removes the
source with all blobs (`destination_without_metadata_wins`).

`compaction_crash_atomic` says that this is the only way: while no open finds a file of the slot
without metadata, the shard is served by the source or by the complete destination.
-/

namespace Epoch

/-- The actions whose index batch is synced before the next action. -/
def EngineAction.synced : EngineAction → Bool
  | .installExtent _ _ _ | .commitBlobs _ _ _ | .setExtentStatus _ _ | .tombstoneBlob _ _
  | .swapShardBinding _ _ _ | .removeExtent _ => true
  | _ => false

/-- An engine with the index as of the last synced batch. -/
structure DiskState where
  engine : StorageEngine
  durable : DiskIndex

namespace DiskState

open StorageEngine

def perform (s : DiskState) (a : EngineAction) : DiskState where
  engine := s.engine.perform a
  durable := if a.synced then (s.engine.perform a).index else s.durable

def performAll (s : DiskState) (actions : List EngineAction) : DiskState := run perform s actions

/-- What the next process finds; with `loses` the batches after the last synced one are gone. -/
def crash (s : DiskState) (loses : Bool) : StorageEngine :=
  { s.engine with
    index := if loses then s.durable else s.engine.index
    writers := ∅ }

lemma engine_performAll (s : DiskState) (actions : List EngineAction) :
    (s.performAll actions).engine = s.engine.performAll actions := by
  induction actions generalizing s with
  | nil => rfl
  | cons a actions ih => exact ih (s.perform a)

/-- The durable index knows what the index knows about the slots, the entries and an extent. -/
structure Knows (s : DiskState) (extent : ExtentId) : Prop where
  bindings : s.durable.bindings = s.engine.index.bindings
  blobs : s.durable.blobs = s.engine.index.blobs
  known : s.durable.getExtentMeta extent = s.engine.index.getExtentMeta extent

variable {s : DiskState} {extent : ExtentId}

lemma knows_of_synced {a : EngineAction} (h : a.synced = true) : Knows (s.perform a) extent := by
  simp only [perform, h, if_true]
  exact ⟨rfl, rfl, rfl⟩

lemma Knows.perform (h : Knows s extent) {a : EngineAction}
    (ha : ∀ m, a ≠ .putExtentMeta extent m) : Knows (s.perform a) extent := by
  cases a with
  | putExtentMeta extent' m =>
    refine ⟨h.bindings, h.blobs, ?_⟩
    show s.durable.getExtentMeta extent = (s.engine.index.extents.insert extent' m).get extent
    rw [OrdMap.get_insert, if_neg]
    · exact h.known
    · rintro rfl
      exact ha m rfl
  | installExtent extent' m blobs => exact knows_of_synced rfl
  | commitBlobs extent' blobs size => exact knows_of_synced rfl
  | setExtentStatus extent' status => exact knows_of_synced rfl
  | tombstoneBlob extent' blob => exact knows_of_synced rfl
  | swapShardBinding shard newExtent oldExtent => exact knows_of_synced rfl
  | removeExtent extent' => exact knows_of_synced rfl
  | _ => exact ⟨h.bindings, h.blobs, h.known⟩

lemma Knows.performAll (h : Knows s extent) {actions : List EngineAction}
    (hall : ∀ a ∈ actions, ∀ m, a ≠ .putExtentMeta extent m) :
    Knows (s.performAll actions) extent := by
  induction actions generalizing s with
  | nil => exact h
  | cons a actions ih =>
    exact ih (h.perform (hall a List.mem_cons_self))
      fun b hb => hall b (List.mem_cons_of_mem a hb)

/-- From the rebind on the destination is durable. -/
lemma knows_of_rebound {actions : List EngineAction} {source : ExtentId}
    (h : Rebound actions source extent) : Knows (s.performAll actions) extent := by
  obtain ⟨earlier, n, rfl⟩ := h
  have hswap : Knows ((s.performAll earlier).perform
      (.swapShardBinding source.shardId extent source)) extent := knows_of_synced rfl
  have hrest : ∀ a ∈ List.take n [EngineAction.moveToTrash source, .removeExtent source,
      .spawnWriter extent], ∀ m, a ≠ .putExtentMeta extent m := by
    intro a ha m
    have hmem := List.mem_of_mem_take ha
    simp only [List.mem_cons, List.not_mem_nil, or_false] at hmem
    rcases hmem with rfl | rfl | rfl <;> simp
  rw [performAll, run_append]
  exact hswap.performAll hrest

/-- What the serving extent has survives a crash. -/
lemma Knows.carries {slot : UInt64} (h : Knows s extent) (hserves : Serves s.engine slot extent)
    (loses : Bool) : Carries slot s.engine extent (s.crash loses) extent := by
  cases loses with
  | false => exact hserves.carries_untouched ⟨rfl, fun _ => rfl, rfl⟩ rfl
  | true =>
    refine hserves.carries_untouched ⟨h.known, ?_, rfl⟩ ?_
    · intro blob
      show s.durable.blobs.get _ = s.engine.index.blobs.get _
      rw [h.blobs]
    · show s.durable.bindings.get slot = _
      rw [h.bindings]

end DiskState

/-! ## Recovery -/

inductive RecoveryStep
  -- the crash of an open leaves the first `done` of the listed files recovered
  | reopen (order : List ExtentId) (done : ℕ)
  | reclaimDropped (stop : ℕ)
  | reclaimOrphans (stop : ℕ)
deriving DecidableEq

namespace StorageEngine

section

variable (crc32c : Bytes → UInt32)

def recoveryStep (engine : StorageEngine) : RecoveryStep → StorageEngine
  | .reopen order done =>
    if order.length ≤ done then engine.reopen crc32c order
    else recoverAll crc32c { engine with writers := ∅ } (order.take done)
  | .reclaimDropped stop => engine.performAll (engine.reclaimDroppedPlan.take stop)
  | .reclaimOrphans stop => engine.performAll (engine.reclaimOrphansPlan.take stop)

/-- The engine after a crash inside a compaction. -/
def crashedCompaction (engine : StorageEngine) (source : ExtentId) (newTs : Int64) (stop : ℕ)
    (loses : Bool) : StorageEngine :=
  ((DiskState.mk engine engine.index).performAll
    ((compactPlan crc32c engine source newTs).take stop)).crash loses

/-- The condition on a step: an open finds metadata for every file of the slot. -/
def MetaComplete (slot : UInt64) (engine : StorageEngine) : RecoveryStep → Prop
  | .reopen _ _ => ∀ e ∈ engine.files.toList, shardPrefix e.1.shardId = slot →
      (engine.index.getExtentMeta e.1).isSome
  | _ => True

instance (slot : UInt64) (engine : StorageEngine) (a : RecoveryStep) :
    Decidable (MetaComplete slot engine a) :=
  match a with
  | .reopen _ _ => inferInstanceAs (Decidable (∀ e ∈ engine.files.toList, _ → _))
  | .reclaimDropped _ => inferInstanceAs (Decidable True)
  | .reclaimOrphans _ => inferInstanceAs (Decidable True)

variable {engine : StorageEngine} {extent : ExtentId} {slot : UInt64}

/-- The truncation of a recovery keeps what the size covers. -/
lemma Live.truncate {blob : BlobId} {body : Bytes} {m : ExtentMeta}
    (h : Live engine extent blob body) (hm : engine.index.getExtentMeta extent = some m) :
    Live (engine.perform (.truncateTo extent m.size.toNat)) extent blob body := by
  obtain ⟨entry, r, hreads, hlive, hbody⟩ := h
  refine ⟨entry, r, ⟨hreads.entry_eq, ?_, hreads.covered, hreads.blob_eq⟩, hlive, hbody⟩
  obtain ⟨f, hfile, hmem⟩ := hreads.record
  obtain ⟨m', hm', hcov⟩ := hreads.covered
  obtain rfl : m = m' := Option.some.inj (hm.symm.trans hm')
  refine ⟨f.truncateTo m.size.toNat, ?_, Stream.mem_scan_truncateTo hmem hcov⟩
  show (engine.files.insert extent (((engine.files.get extent).getD []).truncateTo _)).get extent = _
  rw [OrdMap.get_insert, if_pos rfl, hfile, Option.getD_some]

lemma Serves.carries_truncate {m : ExtentMeta} (h : Serves engine slot extent)
    (hm : engine.index.getExtentMeta extent = some m) :
    Carries slot engine extent (engine.perform (.truncateTo extent m.size.toNat)) extent :=
  ⟨⟨h.bound, h.slot_eq, h.own⟩, fun _ _ hlive => hlive.truncate hm, fun _ hdead => hdead⟩

/-- The recovery of one file. -/
lemma Serves.carries_recoverPlan (h : Serves engine slot extent) (extent' : ExtentId)
    (hcomplete : (engine.files.get extent').isSome → shardPrefix extent'.shardId = slot →
      (engine.index.getExtentMeta extent').isSome) :
    Carries slot engine extent (engine.performAll (recoverPlan crc32c engine extent')) extent := by
  unfold recoverPlan
  cases hfile : engine.files.get extent' with
  | none => exact h.carries
  | some f =>
    cases hmeta : engine.index.getExtentMeta extent' with
    | some m =>
      dsimp only
      by_cases hlt : m.size.toNat < f.writeOffset
      swap
      · rw [if_neg hlt]
        exact h.carries
      rw [if_pos hlt]
      by_cases heq : extent = extent'
      · subst heq
        exact h.carries_truncate hmeta
      · refine h.carries_performAll ?_ ?_
        · intro a ha
          rw [List.mem_singleton.mp ha, EngineAction.touches, List.mem_singleton]
          exact heq
        · intro a ha
          rw [List.mem_singleton.mp ha]
          exact fun _ => rfl
    | none =>
      have hslot : shardPrefix extent'.shardId ≠ slot := by
        intro hslot
        have hsome := hcomplete (by rw [hfile]; rfl) hslot
        rw [hmeta] at hsome
        exact absurd hsome (by simp)
      refine h.carries_performAll ?_ ?_
      · intro a ha
        rw [List.mem_singleton.mp ha, EngineAction.touches, List.mem_singleton]
        rintro rfl
        exact hslot h.slot_eq
      · intro a ha
        rw [List.mem_singleton.mp ha]
        exact fun _ => if_neg hslot

/-- A recovery removes no metadata and creates no file. -/
lemma complete_recoverPlan (engine : StorageEngine) (extent extent' : ExtentId)
    (h : (engine.files.get extent).isSome → (engine.index.getExtentMeta extent).isSome) :
    ((engine.performAll (recoverPlan crc32c engine extent')).files.get extent).isSome →
      ((engine.performAll (recoverPlan crc32c engine extent')).index.getExtentMeta extent).isSome := by
  unfold recoverPlan
  cases hfile : engine.files.get extent' with
  | none => exact h
  | some f =>
    cases hmeta : engine.index.getExtentMeta extent' with
    | some m =>
      dsimp only
      split_ifs
      · intro hsome
        refine h ?_
        change ((engine.files.insert extent' _).get extent).isSome at hsome
        rw [OrdMap.get_insert] at hsome
        split_ifs at hsome with heq
        · rw [← heq, hfile]
          rfl
        · exact hsome
      · exact h
    | none =>
      intro hsome
      show ((engine.index.write (DiskIndex.installExtent _ _ _)).extents.get extent).isSome
      rw [DiskIndex.write_installExtent, OrdMap.get_insert]
      split_ifs
      · rfl
      · exact h hsome

lemma Serves.carries_recoverAll (h : Serves engine slot extent) (order : List ExtentId)
    (hcomplete : ∀ extent', shardPrefix extent'.shardId = slot →
      (engine.files.get extent').isSome → (engine.index.getExtentMeta extent').isSome) :
    Carries slot engine extent (recoverAll crc32c engine order) extent := by
  induction order generalizing engine with
  | nil => exact h.carries
  | cons extent' order ih =>
    have hfirst := h.carries_recoverPlan crc32c extent'
      fun hsome hslot => hcomplete extent' hslot hsome
    refine hfirst.trans (ih hfirst.serves ?_)
    intro extent'' hslot
    exact complete_recoverPlan crc32c engine extent'' extent' (hcomplete extent'' hslot)

lemma Serves.carries_recoveryStep (h : Serves engine slot extent) {a : RecoveryStep}
    (ha : MetaComplete slot engine a) :
    Carries slot engine extent (engine.recoveryStep crc32c a) extent := by
  cases a with
  | reopen order done =>
    have hclosed : Carries slot engine extent { engine with writers := ∅ } extent :=
      h.carries_untouched ⟨rfl, fun _ => rfl, rfl⟩ rfl
    have hcomplete : ∀ extent', shardPrefix extent'.shardId = slot →
        (engine.files.get extent').isSome → (engine.index.getExtentMeta extent').isSome := by
      intro extent' hslot hsome
      obtain ⟨f, hf⟩ := Option.isSome_iff_exists.mp hsome
      exact ha (extent', f) ((engine.files.mem_toList_iff _ _).mpr hf) hslot
    simp only [recoveryStep]
    split_ifs
    · have hrecovered := hclosed.serves.carries_recoverAll crc32c order hcomplete
      exact (hclosed.trans hrecovered).trans
        (hrecovered.serves.carries_untouched ⟨rfl, fun _ => rfl, rfl⟩ rfl)
    · exact hclosed.trans (hclosed.serves.carries_recoverAll crc32c _ hcomplete)
  | reclaimDropped stop => exact h.carries_reclaimDropped stop
  | reclaimOrphans stop => exact h.carries_reclaimOrphans stop

/-- A compaction puts no metadata for its source. -/
lemma compactPlan_ne_putMeta {source : ExtentId} {newTs : Int64} {a : EngineAction}
    (ha : a ∈ compactPlan crc32c engine source newTs) (m : ExtentMeta) :
    a ≠ .putExtentMeta source m := by
  rintro rfl
  rcases mem_compactPlan crc32c ha with ha | ha | ⟨f, ha, hfile, hnone⟩ | ha
  · exact absurd ha (by simp)
  · exact absurd ha (by simp)
  · have htouches := (touches_fillPlan crc32c ha).1
    have heq : source = ⟨source.shardId, newTs⟩ := by
      simpa [EngineAction.touches] using htouches
    rw [← heq, hfile] at hnone
    exact absurd hnone (by simp)
  · exact absurd ha (by simp [rebindPlan])

/-- The compaction itself, cut by a crash. -/
lemma Serves.carries_crashedCompaction (h : Serves engine slot extent) (newTs : Int64)
    (hfree : engine.files.get ⟨extent.shardId, newTs⟩ = none →
      ∀ blob, engine.index.getBlob ⟨extent.shardId, newTs⟩ blob = none) (stop : ℕ)
    (loses : Bool) :
    ∃ extent', Carries slot engine extent
      (crashedCompaction crc32c engine extent newTs stop loses) extent' := by
  have hengine := DiskState.engine_performAll ⟨engine, engine.index⟩
    ((compactPlan crc32c engine extent newTs).take stop)
  have hcarries := h.carries_compact crc32c newTs hfree stop
  rw [← show _ = _ from hengine] at hcarries
  rcases hcarries with hsame | ⟨hrebound, hmoved⟩
  · have hknows : DiskState.Knows ((DiskState.mk engine engine.index).performAll
        ((compactPlan crc32c engine extent newTs).take stop)) extent :=
      DiskState.Knows.performAll ⟨rfl, rfl, rfl⟩
        fun a ha => compactPlan_ne_putMeta crc32c (List.mem_of_mem_take ha)
    exact ⟨extent, hsame.trans (hknows.carries hsame.serves loses)⟩
  · exact ⟨_, hmoved.trans ((DiskState.knows_of_rebound hrebound).carries hmoved.serves loses)⟩

end

end StorageEngine

open StorageEngine

/-- A compaction is crash atomic: the process crashes anywhere inside it, with or without the loss of
what was not synced, and recovers and sweeps with further crashes.  While no open finds a file of the
slot without metadata, every live blob is still read, and no tombstoned blob is live. -/
theorem compaction_crash_atomic (crc32c : Bytes → UInt32) {engine : StorageEngine}
    {shard : ShardId} {source : ExtentId} (hserves : Serves engine (shardPrefix shard) source)
    {newTs : Int64}
    (hfree : engine.files.get ⟨source.shardId, newTs⟩ = none →
      ∀ blob, engine.index.getBlob ⟨source.shardId, newTs⟩ blob = none)
    (stop : ℕ) (loses : Bool) {steps : List RecoveryStep}
    (hmeta : Along (recoveryStep crc32c) (MetaComplete (shardPrefix shard))
      (crashedCompaction crc32c engine source newTs stop loses) steps) :
    (∀ blob body, Live engine source blob body →
        (run (recoveryStep crc32c) (crashedCompaction crc32c engine source newTs stop loses)
          steps).readShard shard blob = .ok (some body))
      ∧ ∃ extent,
          (run (recoveryStep crc32c) (crashedCompaction crc32c engine source newTs stop loses)
            steps).index.getShardBinding shard = some extent
          ∧ ∀ blob entry, engine.index.getBlob source blob = some entry →
              entry.isTombstoned = true → ∀ entry',
                (run (recoveryStep crc32c) (crashedCompaction crc32c engine source newTs stop loses)
                  steps).index.getBlob extent blob = some entry' →
                entry'.isTombstoned = true := by
  obtain ⟨extent, hcarries⟩ : ∃ extent, Carries (shardPrefix shard) engine source
      (run (recoveryStep crc32c) (crashedCompaction crc32c engine source newTs stop loses) steps)
      extent := by
    refine Along.invariant (P := fun g => ∃ extent, Carries (shardPrefix shard) engine source g extent)
      ?_ (hserves.carries_crashedCompaction crc32c newTs hfree stop loses) hmeta
    rintro g a ⟨extent, hcarries⟩ ha
    exact ⟨extent, hcarries.trans (hcarries.serves.carries_recoveryStep crc32c ha)⟩
  refine ⟨?_, extent, hcarries.serves.bound, ?_⟩
  · intro blob body hlive
    exact (hcarries.live blob body hlive).readShard hcarries.serves.bound
  · intro blob entry hget ht
    refine hcarries.dead blob ?_
    intro entry' hget'
    rw [hget] at hget'
    rw [← Option.some.inj hget']
    exact ht

/-- An extent with two blobs, one of them deleted. -/
def compactionSource : StorageEngine :=
  (run (DataNode.step (fun _ => 0) fun _ => 5) .empty
    [.createExtent 1, .write ⟨1, 5⟩ 10 [1], .write ⟨1, 5⟩ 11 [2], .delete ⟨1, 5⟩ 10]).engine

lemma serves_compactionSource : compactionSource.Serves (shardPrefix 1) ⟨1, 5⟩ := by
  refine ⟨by decide +kernel, by decide +kernel, ⟨1, .Writable, 12288, 4096, 5⟩, ?_, ?_, ?_⟩
  · decide +kernel
  · decide +kernel
  · decide +kernel

lemma live_compactionSource : compactionSource.Live ⟨1, 5⟩ 11 [2] := by
  refine ⟨⟨8192, 1, 0, 0⟩, ⟨11, 1, [2]⟩, ⟨?_, ?_, ?_, rfl⟩, by decide, rfl⟩
  · decide +kernel
  · exact ⟨[⟨10, 1, [1]⟩, ⟨11, 1, [2]⟩], by decide +kernel, by decide +kernel⟩
  · exact ⟨⟨1, .Writable, 12288, 4096, 5⟩, by decide +kernel, by decide +kernel⟩

lemma free_compactionSource (blob : BlobId) :
    compactionSource.index.getBlob ⟨1, 6⟩ blob = none := by
  cases hget : compactionSource.index.getBlob ⟨1, 6⟩ blob with
  | none => rfl
  | some entry =>
    have hmem := DiskIndex.mem_listBlobs.mpr hget
    rw [show compactionSource.index.listBlobs ⟨1, 6⟩ = [] by decide +kernel] at hmem
    exact absurd hmem List.not_mem_nil

/-- A crash in the copy loop, after the copy is committed. -/
theorem compaction_crash_atomic_demo :
    Along (StorageEngine.recoveryStep fun _ => 0) (StorageEngine.MetaComplete (shardPrefix 1))
        (StorageEngine.crashedCompaction (fun _ => 0) compactionSource ⟨1, 5⟩ 6 6 true)
        [.reopen [⟨1, 6⟩, ⟨1, 5⟩] 2, .reclaimOrphans 2]
      ∧ (run (StorageEngine.recoveryStep fun _ => 0)
        (StorageEngine.crashedCompaction (fun _ => 0) compactionSource ⟨1, 5⟩ 6 6 true)
        [.reopen [⟨1, 6⟩, ⟨1, 5⟩] 2, .reclaimOrphans 2]).readShard 1 11 = .ok (some [2]) := by
  have h : Along (StorageEngine.recoveryStep fun _ => 0)
      (StorageEngine.MetaComplete (shardPrefix 1))
      (StorageEngine.crashedCompaction (fun _ => 0) compactionSource ⟨1, 5⟩ 6 6 true)
      [.reopen [⟨1, 6⟩, ⟨1, 5⟩] 2, .reclaimOrphans 2] := by decide +kernel
  exact ⟨h, (compaction_crash_atomic (fun _ => 0) serves_compactionSource
    (fun _ => free_compactionSource) 6 true h).1 11 [2] live_compactionSource⟩

/-- A crash between the creation of the destination file and its metadata: the open binds the shard
to the empty file, and the orphan sweep removes the source. -/
theorem destination_without_metadata_wins :
    compactionSource.readShard 1 11 = .ok (some [2])
      ∧ (run (StorageEngine.recoveryStep fun _ => 0)
        (StorageEngine.crashedCompaction (fun _ => 0) compactionSource ⟨1, 5⟩ 6 3 false)
        [.reopen [⟨1, 5⟩, ⟨1, 6⟩] 2]).readShard 1 11 = .ok none
      ∧ (run (StorageEngine.recoveryStep fun _ => 0)
        (StorageEngine.crashedCompaction (fun _ => 0) compactionSource ⟨1, 5⟩ 6 3 false)
        [.reopen [⟨1, 5⟩, ⟨1, 6⟩] 2, .reclaimOrphans 2]).files.get ⟨1, 5⟩ = none := by
  decide +kernel

end Epoch
