import Epoch.Store.Frame
import Epoch.Store.WriterMap

/-!
# What a slot serves

A blob is live in an extent when an entry without the tombstone flag leads to its record.  `Carries`
relates two engine states and the extents that serve a slot in them: nothing live is lost, nothing
dead comes back.  It composes, and it holds for an operation that does not touch the serving extent
and leaves the binding alone.

An appended and committed record is live, and so the copy loop of a compaction fills its destination
with the live blobs of the source and with nothing else (`Copied.copyPlan`).
-/

namespace Epoch

namespace Stream

/-- A record that ends by the cut stays where it is. -/
lemma mem_scan_truncateTo {f : Stream} {size offset : ℕ} {r : Record} (h : (offset, r) ∈ f.scan)
    (hsize : offset + r.onDiskLen ≤ size) : (offset, r) ∈ (f.truncateTo size).scan := by
  obtain ⟨f₁, f₂, rfl, rfl⟩ := exists_split_of_mem_located h
  have hsplit : f₁ ++ r :: f₂ = (f₁ ++ [r]) ++ f₂ := by simp
  have hend : writeOffset (f₁ ++ [r]) ≤ size := by
    rw [writeOffset_append]
    exact hsize
  have hkeep : (scan (f₁ ++ [r])).filter (fun e => e.1 + e.2.onDiskLen ≤ size)
      = scan (f₁ ++ [r]) := by
    rw [List.filter_eq_self]
    intro e he
    exact decide_eq_true ((located_bounds he).2.trans hend)
  have hmap : (scan (f₁ ++ [r])).map Prod.snd = f₁ ++ [r] := map_snd_located _ _
  rw [truncateTo, hsplit, scan_append, List.filter_append, hkeep, List.map_append, hmap,
    scan_append, scan_append]
  exact List.mem_append_left _ (List.mem_append_right _ List.mem_cons_self)

end Stream

namespace StorageEngine

/-! ## Live blobs -/

/-- An entry leads to a record of the blob, which the extent's size covers. -/
structure Reads (engine : StorageEngine) (extent : ExtentId) (blob : BlobId) (entry : BlobIndex)
    (r : Record) : Prop where
  entry_eq : engine.index.getBlob extent blob = some entry
  record : ∃ f, engine.files.get extent = some f ∧ (entry.offset.toNat, r) ∈ f.scan
  covered : ∃ m, engine.index.getExtentMeta extent = some m
    ∧ entry.offset.toNat + r.onDiskLen ≤ m.size.toNat
  blob_eq : r.blobId = blob

def Live (engine : StorageEngine) (extent : ExtentId) (blob : BlobId) (body : Bytes) : Prop :=
  ∃ entry r, Reads engine extent blob entry r ∧ entry.isTombstoned = false ∧ r.body = body

/-- The blob has no entry, or a tombstoned one. -/
def Dead (engine : StorageEngine) (extent : ExtentId) (blob : BlobId) : Prop :=
  ∀ entry, engine.index.getBlob extent blob = some entry → entry.isTombstoned = true

/-- The extent that serves a slot. -/
structure Serves (engine : StorageEngine) (slot : UInt64) (extent : ExtentId) : Prop where
  bound : engine.index.bindings.get slot = some extent
  slot_eq : shardPrefix extent.shardId = slot
  own : ∃ m, engine.index.getExtentMeta extent = some m ∧ m.shardId = extent.shardId
    ∧ m.status ≠ .Dropped

variable {engine engine' engine'' : StorageEngine} {extent extent' extent'' : ExtentId}
  {slot : UInt64} {blob : BlobId} {body : Bytes}

lemma Live.readBlob (h : Live engine extent blob body) {f : Stream}
    (hfile : engine.files.get extent = some f) :
    readBlob engine.index extent f blob = .ok (some body) := by
  obtain ⟨entry, r, hreads, -, rfl⟩ := h
  obtain ⟨f', hfile', hmem⟩ := hreads.record
  obtain rfl : f = f' := Option.some.inj (hfile.symm.trans hfile')
  unfold StorageEngine.readBlob
  simp only [hreads.entry_eq, Stream.readRecord_eq_some.mpr hmem, hreads.blob_eq, if_true]

/-- A live blob of the serving extent is read. -/
theorem Live.readShard (h : Live engine extent blob body) {shard : ShardId}
    (hbound : engine.index.bindings.get (shardPrefix shard) = some extent) :
    engine.readShard shard blob = .ok (some body) := by
  obtain ⟨entry, r, hreads, hlive, hbody⟩ := h
  obtain ⟨f, hfile, hmem⟩ := hreads.record
  unfold StorageEngine.readShard DiskIndex.getShardBinding
  simp only [hbound, hfile]
  exact Live.readBlob ⟨entry, r, hreads, hlive, hbody⟩ hfile

lemma Live.of_untouched (h : Live engine extent blob body) (hu : Untouched extent engine engine') :
    Live engine' extent blob body := by
  obtain ⟨entry, r, hreads, hlive, hbody⟩ := h
  refine ⟨entry, r, ⟨?_, ?_, ?_, hreads.blob_eq⟩, hlive, hbody⟩
  · rw [hu.blob_eq]
    exact hreads.entry_eq
  · rw [hu.file_eq]
    exact hreads.record
  · rw [hu.meta_eq]
    exact hreads.covered

lemma Dead.of_untouched (h : Dead engine extent blob) (hu : Untouched extent engine engine') :
    Dead engine' extent blob := by
  intro entry
  rw [hu.blob_eq]
  exact h entry

lemma Serves.isBound (h : Serves engine slot extent) : engine.IsBound extent := by
  rw [IsBound, DiskIndex.getShardBinding, h.slot_eq]
  exact h.bound

lemma Serves.status_ne (h : Serves engine slot extent) : engine.status extent ≠ some .Dropped := by
  obtain ⟨m, hm, -, hst⟩ := h.own
  rw [status, hm]
  exact fun heq => hst (Option.some.inj heq)

/-! ## Carrying over -/

/-- What served the slot before is served after: nothing live is lost, nothing dead comes back. -/
structure Carries (slot : UInt64) (engine : StorageEngine) (extent : ExtentId)
    (engine' : StorageEngine) (extent' : ExtentId) : Prop where
  serves : Serves engine' slot extent'
  live : ∀ blob body, Live engine extent blob body → Live engine' extent' blob body
  dead : ∀ blob, Dead engine extent blob → Dead engine' extent' blob

lemma Serves.carries (h : Serves engine slot extent) : Carries slot engine extent engine extent :=
  ⟨h, fun _ _ hlive => hlive, fun _ hdead => hdead⟩

lemma Carries.trans (h : Carries slot engine extent engine' extent')
    (h' : Carries slot engine' extent' engine'' extent'') :
    Carries slot engine extent engine'' extent'' :=
  ⟨h'.serves, fun blob body hlive => h'.live blob body (h.live blob body hlive),
    fun blob hdead => h'.dead blob (h.dead blob hdead)⟩

/-- An action that sets no binding of the slot. -/
def KeepsBinding (slot : UInt64) (a : EngineAction) : Prop := ∀ old, bindingAfter slot old a = old

variable {blob' : BlobId} {actions : List EngineAction}

lemma binding_performAll (h : ∀ a ∈ actions, KeepsBinding slot a) (engine : StorageEngine) :
    (engine.performAll actions).index.bindings.get slot = engine.index.bindings.get slot := by
  induction actions generalizing engine with
  | nil => rfl
  | cons a actions ih =>
    rw [performAll_cons, ih fun b hb => h b (List.mem_cons_of_mem a hb), binding_perform,
      h a List.mem_cons_self]

lemma Serves.carries_untouched (h : Serves engine slot extent)
    (hu : Untouched extent engine engine')
    (hbind : engine'.index.bindings.get slot = engine.index.bindings.get slot) :
    Carries slot engine extent engine' extent := by
  refine ⟨⟨hbind.trans h.bound, h.slot_eq, ?_⟩, fun _ _ hlive => hlive.of_untouched hu,
    fun _ hdead => hdead.of_untouched hu⟩
  rw [hu.meta_eq]
  exact h.own

/-- What neither touches the serving extent nor rebinds the slot. -/
lemma Serves.carries_performAll (h : Serves engine slot extent)
    (htouch : ∀ a ∈ actions, extent ∉ a.touches) (hbind : ∀ a ∈ actions, KeepsBinding slot a) :
    Carries slot engine extent (engine.performAll actions) extent :=
  h.carries_untouched (untouched_performAll htouch engine) (binding_performAll hbind engine)

/-! ## Statuses -/

/-- A status changes neither entries nor files nor sizes. -/
lemma getExtentMeta_setStatus (engine : StorageEngine) (extent : ExtentId) (st : ExtentStatus) :
    (engine.perform (.setExtentStatus extent st)).index.getExtentMeta extent
      = (engine.index.getExtentMeta extent).map fun m => { m with status := st } := by
  unfold perform
  simp only [batch, DiskIndex.setExtentStatus]
  cases hget : engine.index.getExtentMeta extent with
  | none => exact hget
  | some m =>
    show (DiskIndex.mergeAt engine.index.extents extent (.SetStatus st)).get extent = _
    rw [DiskIndex.get_mergeAt, if_pos rfl, show engine.index.extents.get extent = some m from hget]
    rfl

lemma blobs_setStatus (engine : StorageEngine) (extent : ExtentId) (st : ExtentStatus) :
    (engine.perform (.setExtentStatus extent st)).index.blobs = engine.index.blobs := by
  unfold perform
  simp only [batch, DiskIndex.setExtentStatus]
  cases engine.index.getExtentMeta extent <;> rfl

lemma Serves.carries_setStatus (h : Serves engine slot extent) {st : ExtentStatus}
    (hst : st ≠ .Dropped) :
    Carries slot engine extent (engine.perform (.setExtentStatus extent st)) extent := by
  have hmeta := getExtentMeta_setStatus engine extent st
  refine ⟨⟨?_, h.slot_eq, ?_⟩, ?_, ?_⟩
  · rw [binding_perform]
    exact h.bound
  · obtain ⟨m, hm, hown, -⟩ := h.own
    rw [hmeta, hm]
    exact ⟨_, rfl, hown, hst⟩
  · rintro blob body ⟨entry, r, hreads, hlive, hbody⟩
    refine ⟨entry, r, ⟨?_, hreads.record, ?_, hreads.blob_eq⟩, hlive, hbody⟩
    · rw [DiskIndex.getBlob, blobs_setStatus]
      exact hreads.entry_eq
    · obtain ⟨m, hm, hcov⟩ := hreads.covered
      rw [hmeta, hm]
      exact ⟨_, rfl, hcov⟩
  · intro blob hdead entry
    rw [DiskIndex.getBlob, blobs_setStatus]
    exact hdead entry

/-! ## Tombstones -/

lemma getExtentMeta_tombstone (engine : StorageEngine) (extent : ExtentId) (blob : BlobId)
    {m : ExtentMeta} (hm : engine.index.getExtentMeta extent = some m) :
    ∃ m', (engine.perform (.tombstoneBlob extent blob)).index.getExtentMeta extent = some m'
      ∧ m'.size = m.size ∧ m'.shardId = m.shardId ∧ m'.status = m.status := by
  unfold perform
  simp only [batch]
  cases hbatch : engine.index.tombstoneBlob extent blob with
  | none => exact ⟨m, hm, rfl, rfl, rfl⟩
  | some ops =>
    obtain ⟨entry, -, -, hwrite⟩ := DiskIndex.tombstoneBlob_eq_some hbatch
    rw [Option.getD_some, hwrite]
    refine ⟨(MetaMergeOp.AddDeletedBytes (UInt64.ofNat (recordOnDiskLen entry.size))).apply m,
      ?_, rfl, rfl, rfl⟩
    show (DiskIndex.mergeAt _ _ _).get extent = _
    rw [DiskIndex.get_mergeAt, if_pos rfl, show engine.index.extents.get extent = some m from hm,
      Option.map_some]

lemma getBlob_tombstone_of_ne (h : blob' ≠ blob) :
    (engine.perform (.tombstoneBlob extent blob)).index.getBlob extent blob'
      = engine.index.getBlob extent blob' := by
  unfold perform
  simp only [batch]
  cases hbatch : engine.index.tombstoneBlob extent blob with
  | none => rfl
  | some ops =>
    obtain ⟨entry, -, -, hwrite⟩ := DiskIndex.tombstoneBlob_eq_some hbatch
    rw [Option.getD_some, hwrite]
    show (engine.index.blobs.write _).get _ = _
    rw [OrdMap.get_write, if_neg]
    · rfl
    · intro hkey
      exact h (Prod.mk.inj (toLex_inj.mp hkey)).2.symm

/-- A tombstoned blob is dead. -/
lemma dead_tombstone : Dead (engine.perform (.tombstoneBlob extent blob)) extent blob := by
  intro entry hget
  unfold perform at hget
  simp only [batch] at hget
  cases hbatch : engine.index.tombstoneBlob extent blob with
  | none =>
    simp only [hbatch, Option.getD_none, DiskIndex.write_nil] at hget
    rw [DiskIndex.tombstoneBlob, hget] at hbatch
    by_contra ht
    simp [ht] at hbatch
  | some ops =>
    obtain ⟨old, -, -, hwrite⟩ := DiskIndex.tombstoneBlob_eq_some hbatch
    rw [hbatch, Option.getD_some, hwrite] at hget
    change (engine.index.blobs.write _).get _ = _ at hget
    rw [OrdMap.get_write, if_pos rfl] at hget
    obtain rfl := Option.some.inj hget
    exact BlobIndex.isTombstoned_tombstoned old

lemma Dead.tombstone (h : Dead engine extent blob') :
    Dead (engine.perform (.tombstoneBlob extent blob)) extent blob' := by
  by_cases heq : blob' = blob
  · rw [heq]
    exact dead_tombstone
  · intro entry
    rw [getBlob_tombstone_of_ne heq]
    exact h entry

lemma Live.tombstone (h : Live engine extent blob' body) (hne : blob' ≠ blob) :
    Live (engine.perform (.tombstoneBlob extent blob)) extent blob' body := by
  obtain ⟨entry, r, hreads, hlive, hbody⟩ := h
  refine ⟨entry, r, ⟨?_, hreads.record, ?_, hreads.blob_eq⟩, hlive, hbody⟩
  · rw [getBlob_tombstone_of_ne hne]
    exact hreads.entry_eq
  · obtain ⟨m, hm, hcov⟩ := hreads.covered
    obtain ⟨m', hm', hsize, -⟩ := getExtentMeta_tombstone engine extent blob hm
    exact ⟨m', hm', by rw [hsize]; exact hcov⟩

lemma Serves.tombstone (h : Serves engine slot extent) :
    Serves (engine.perform (.tombstoneBlob extent blob)) slot extent := by
  refine ⟨?_, h.slot_eq, ?_⟩
  · rw [binding_perform]
    exact h.bound
  · obtain ⟨m, hm, hown, hst⟩ := h.own
    obtain ⟨m', hm', -, hown', hst'⟩ := getExtentMeta_tombstone engine extent blob hm
    exact ⟨m', hm', hown'.trans hown, hst' ▸ hst⟩

/-! ## A new extent -/

section

variable (engine) (shard : ShardId) (createTs : Int64) (st : ExtentStatus)

lemma touches_installPlan {a : EngineAction} (ha : a ∈ installPlan shard createTs st) :
    ∀ e ∈ a.touches, e = ⟨shard, createTs⟩ := by
  simp only [installPlan, List.mem_cons, List.not_mem_nil, or_false] at ha
  rcases ha with rfl | rfl | rfl <;> simp [EngineAction.touches]

lemma binding_installPlan (slot : UInt64) :
    (engine.performAll (installPlan shard createTs st)).index.bindings.get slot
      = if shardPrefix shard = slot then some ⟨shard, createTs⟩
        else engine.index.bindings.get slot := by
  simp only [installPlan, performAll_cons, performAll_nil]
  rw [binding_perform, binding_perform, binding_perform]
  rfl

lemma getExtentMeta_installPlan :
    (engine.performAll (installPlan shard createTs st)).index.getExtentMeta ⟨shard, createTs⟩
      = some (DiskIndex.freshMeta shard st createTs) := by
  show (engine.index.write (DiskIndex.installExtent _ _ _)).extents.get _ = _
  rw [DiskIndex.write_installExtent, OrdMap.get_insert, if_pos rfl]

lemma getBlob_installPlan (blob : BlobId) :
    (engine.performAll (installPlan shard createTs st)).index.getBlob ⟨shard, createTs⟩ blob
      = engine.index.getBlob ⟨shard, createTs⟩ blob := by
  show (engine.index.write (DiskIndex.installExtent _ _ _)).blobs.get _ = _
  rw [DiskIndex.write_installExtent]
  rfl

lemma writers_installPlan :
    (engine.performAll (installPlan shard createTs st)).writers
      = insert ⟨shard, createTs⟩ engine.writers := by
  simp only [installPlan, performAll_cons, performAll_nil, perform, register]

lemma files_installPlan :
    (engine.performAll (installPlan shard createTs st)).files.get ⟨shard, createTs⟩ = some [] := by
  show (engine.files.insert _ []).get _ = _
  rw [OrdMap.get_insert, if_pos rfl]

lemma serves_installPlan (hst : st ≠ .Dropped) :
    Serves (engine.performAll (installPlan shard createTs st)) (shardPrefix shard)
      ⟨shard, createTs⟩ := by
  refine ⟨?_, rfl, ?_⟩
  · rw [binding_installPlan, if_pos rfl]
  · exact ⟨_, getExtentMeta_installPlan engine shard createTs st, rfl, hst⟩

/-- A creation leaves other slots alone. -/
lemma Serves.carries_installPlan {engine : StorageEngine} (h : Serves engine slot extent)
    (hslot : shardPrefix shard ≠ slot) :
    Carries slot engine extent (engine.performAll (installPlan shard createTs st)) extent := by
  refine h.carries_untouched (untouched_performAll ?_ engine) ?_
  · intro a ha hmem
    have heq := touches_installPlan shard createTs st ha extent hmem
    exact hslot (by rw [← h.slot_eq, heq])
  · rw [binding_installPlan, if_neg hslot]

end

/-! ## An appended and committed record -/

section

variable (crc32c : Bytes → UInt32)

/-- `append_record`, the sync and `commit_blobs` for one record. -/
def appendPlan (extent : ExtentId) (f : Stream) (r : Record) : List EngineAction :=
  [.appendRecord extent r,
    .commitBlobs extent [(r.blobId, entryOf crc32c f.writeOffset r)]
      (UInt64.ofNat (Stream.writeOffset (f ++ [r])))]

variable {f : Stream} {r : Record}

lemma files_appendPlan (hfile : engine.files.get extent = some f) :
    (engine.performAll (appendPlan crc32c extent f r)).files.get extent = some (f ++ [r]) := by
  show (engine.files.insert extent ((engine.files.get extent).getD [] ++ [r])).get extent = _
  rw [OrdMap.get_insert, if_pos rfl, hfile]
  rfl

lemma getExtentMeta_appendPlan :
    (engine.performAll (appendPlan crc32c extent f r)).index.getExtentMeta extent
      = (engine.index.getExtentMeta extent).map fun m =>
          { m with size := UInt64.ofNat (Stream.writeOffset (f ++ [r])) } := by
  show (engine.index.write (DiskIndex.commitBlobs extent _ _)).extents.get extent = _
  rw [DiskIndex.write_commitBlobs, DiskIndex.get_mergeAt, if_pos rfl]
  rfl

lemma getBlob_appendPlan (blob : BlobId) :
    (engine.performAll (appendPlan crc32c extent f r)).index.getBlob extent blob
      = if blob = r.blobId then some (entryOf crc32c f.writeOffset r)
        else engine.index.getBlob extent blob := by
  show (engine.index.write (DiskIndex.commitBlobs extent _ _)).blobs.get _ = _
  rw [DiskIndex.write_commitBlobs]
  split_ifs with h
  · subst h
    exact DiskIndex.get_blobPuts_of_mem (by simp) List.mem_cons_self
  · exact DiskIndex.get_blobPuts_of_notMem fun _ hmem => h (by simpa using hmem)

lemma touches_appendPlan {a : EngineAction} (ha : a ∈ appendPlan crc32c extent f r) :
    a.touches = [extent] ∧ ∀ slot, KeepsBinding slot a := by
  simp only [appendPlan, List.mem_cons, List.not_mem_nil, or_false] at ha
  rcases ha with rfl | rfl
  · exact ⟨rfl, fun _ _ => rfl⟩
  · exact ⟨rfl, fun _ _ => rfl⟩

lemma Serves.appendPlan (h : Serves engine slot extent) (f : Stream) (r : Record) :
    Serves (engine.performAll (appendPlan crc32c extent f r)) slot extent := by
  refine ⟨?_, h.slot_eq, ?_⟩
  · rw [binding_performAll fun a ha => (touches_appendPlan crc32c ha).2 slot]
    exact h.bound
  · obtain ⟨m, hm, hown, hst⟩ := h.own
    rw [getExtentMeta_appendPlan, hm]
    exact ⟨_, rfl, hown, hst⟩

/-- An accepted record ends within the file offsets. -/
lemma toNat_writeOffset_append (hacc : f.accepts r.body = true) :
    (UInt64.ofNat (Stream.writeOffset (f ++ [r]))).toNat = f.writeOffset + r.onDiskLen := by
  rw [Stream.accepts, Bool.and_eq_true, decide_eq_true_eq, decide_eq_true_eq] at hacc
  rw [Stream.writeOffset_append]
  exact UInt64.toNat_ofNat_of_lt' (lt_trans hacc.2 (by decide))

lemma toNat_offset_entryOf (hacc : f.accepts r.body = true) :
    (entryOf crc32c f.writeOffset r).offset.toNat = f.writeOffset := by
  rw [Stream.accepts, Bool.and_eq_true, decide_eq_true_eq, decide_eq_true_eq] at hacc
  show (UInt64.ofNat f.writeOffset).toNat = _
  exact UInt64.toNat_ofNat_of_lt'
    (lt_trans (lt_of_le_of_lt (Nat.le_add_right _ _) hacc.2) (by decide))

/-- The record is live. -/
lemma live_appendPlan (hfile : engine.files.get extent = some f)
    (hmeta : (engine.index.getExtentMeta extent).isSome) (hacc : f.accepts r.body = true) :
    Live (engine.performAll (appendPlan crc32c extent f r)) extent r.blobId r.body := by
  obtain ⟨m, hm⟩ := Option.isSome_iff_exists.mp hmeta
  refine ⟨entryOf crc32c f.writeOffset r, r, ⟨?_, ?_, ?_, rfl⟩, BlobIndex.isTombstoned_new _ _ _,
    rfl⟩
  · rw [getBlob_appendPlan, if_pos rfl]
  · refine ⟨f ++ [r], files_appendPlan crc32c hfile, ?_⟩
    rw [toNat_offset_entryOf crc32c hacc]
    exact Stream.readRecord_eq_some.mp (Stream.readRecord_appended f r)
  · rw [getExtentMeta_appendPlan, hm]
    refine ⟨_, rfl, ?_⟩
    rw [toNat_offset_entryOf crc32c hacc]
    exact (toNat_writeOffset_append hacc).ge

/-- Other live blobs stay live. -/
lemma Live.appendPlan (h : Live engine extent blob body)
    (hfile : engine.files.get extent = some f) (hacc : f.accepts r.body = true)
    (hne : blob ≠ r.blobId) :
    Live (engine.performAll (appendPlan crc32c extent f r)) extent blob body := by
  obtain ⟨entry, r', hreads, hlive, hbody⟩ := h
  obtain ⟨f', hfile', hmem⟩ := hreads.record
  obtain rfl : f = f' := Option.some.inj (hfile.symm.trans hfile')
  obtain ⟨m, hm, -⟩ := hreads.covered
  refine ⟨entry, r', ⟨?_, ?_, ?_, hreads.blob_eq⟩, hlive, hbody⟩
  · rw [getBlob_appendPlan, if_neg hne]
    exact hreads.entry_eq
  · refine ⟨f ++ [r], files_appendPlan crc32c hfile, ?_⟩
    rw [Stream.scan_append]
    exact List.mem_append_left _ hmem
  · rw [getExtentMeta_appendPlan, hm]
    refine ⟨_, rfl, ?_⟩
    show _ ≤ (UInt64.ofNat (Stream.writeOffset (f ++ [r]))).toNat
    rw [toNat_writeOffset_append hacc]
    exact (Stream.located_bounds hmem).2.trans (Nat.le_add_right _ _)

/-! ## The copy loop -/

/-- The destination after some blobs have been copied: these are live, and there is nothing else. -/
structure Copied (engine : StorageEngine) (extent : ExtentId) (dest : Stream)
    (done : List (BlobId × Bytes)) : Prop where
  file : engine.files.get extent = some dest
  own : ∃ m, engine.index.getExtentMeta extent = some m ∧ m.shardId = extent.shardId
    ∧ m.status = .Writable
  live : ∀ b ∈ done, Live engine extent b.1 b.2
  rest : ∀ blob, blob ∉ done.map Prod.fst → engine.index.getBlob extent blob = none

variable {done : List (BlobId × Bytes)}

lemma Copied.append (h : Copied engine extent f done) (hacc : f.accepts r.body = true)
    (hnew : r.blobId ∉ done.map Prod.fst) :
    Copied (engine.performAll (appendPlan crc32c extent f r)) extent (f ++ [r])
      (done ++ [(r.blobId, r.body)]) := by
  refine ⟨files_appendPlan crc32c h.file, ?_, ?_, ?_⟩
  · obtain ⟨m, hm, hown⟩ := h.own
    rw [getExtentMeta_appendPlan, hm]
    exact ⟨_, rfl, hown⟩
  · intro b hb
    rcases List.mem_append.mp hb with hb | hb
    · refine (h.live b hb).appendPlan crc32c h.file hacc ?_
      intro heq
      exact hnew (heq ▸ List.mem_map_of_mem hb)
    · rw [List.mem_singleton] at hb
      rw [hb]
      obtain ⟨m, hm, -⟩ := h.own
      exact live_appendPlan crc32c h.file (by simp [hm]) hacc
  · intro blob hblob
    rw [List.map_append, List.mem_append, not_or] at hblob
    rw [getBlob_appendPlan, if_neg (by simpa using hblob.2)]
    exact h.rest blob hblob.1

/-- The blobs that the copy loop reads from the source. -/
def bodies (source : Stream) (live : List (BlobId × BlobIndex)) : List (BlobId × Bytes) :=
  live.filterMap fun b => (source.readRecord b.2.offset.toNat).map fun r => (b.1, r.body)

/-- A copy loop that ends without an error has copied every live blob. -/
lemma Copied.copyPlan {index : DiskIndex} {source : Stream} {live : List (BlobId × BlobIndex)}
    {dest : Stream} (h : Copied engine extent dest done)
    (hfree : ∀ blob, index.getBlob extent blob = none) (hnd : (live.map Prod.fst).Nodup)
    (hdisj : ∀ b ∈ live, b.1 ∉ done.map Prod.fst)
    (hok : (copyPlan crc32c index source extent dest live).2 = true) :
    ∃ dest', Copied
      (engine.performAll (StorageEngine.copyPlan crc32c index source extent dest live).1)
      extent dest' (done ++ bodies source live) := by
  induction live generalizing engine dest done with
  | nil => exact ⟨dest, by simpa [StorageEngine.copyPlan, bodies] using h⟩
  | cons b live ih =>
    unfold StorageEngine.copyPlan at hok ⊢
    cases hread : source.readRecord b.2.offset.toNat with
    | none => simp [hread] at hok
    | some r' =>
      simp only [hread, hfree, Option.isSome_none, Bool.false_eq_true, if_false] at hok ⊢
      by_cases hacc : dest.accepts r'.body = true
      swap
      · rw [if_neg hacc] at hok
        exact absurd hok (by simp)
      rw [if_pos hacc] at hok ⊢
      have hnew : b.1 ∉ done.map Prod.fst := hdisj b List.mem_cons_self
      rw [List.map_cons, List.nodup_cons] at hnd
      obtain ⟨dest', hdest⟩ := ih (h.append crc32c (r := ⟨b.1, extent.shardId, r'.body⟩) hacc hnew)
        hnd.2 (by
          intro b' hb' hmem
          rw [List.map_append, List.mem_append] at hmem
          rcases hmem with hmem | hmem
          · exact hdisj b' (List.mem_cons_of_mem b hb') hmem
          · have hid : b'.1 = b.1 := by simpa using hmem
            exact hnd.1 (hid ▸ List.mem_map_of_mem hb')) hok
      refine ⟨dest', ?_⟩
      have hbodies : done ++ [(b.1, r'.body)] ++ bodies source live
          = done ++ bodies source (b :: live) := by
        simp [bodies, hread]
      rw [← hbodies]
      exact hdest

end

end StorageEngine

end Epoch
