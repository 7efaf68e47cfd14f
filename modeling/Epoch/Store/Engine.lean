import Epoch.Lib.Run
import Epoch.Store.Index
import Epoch.Store.Stream

/-!
# The storage engine of a disk (`service.rs`, `compact.rs`, `scrub.rs`)

The engine has the index, the extent files and the registered writers.  What an operation does is a
list of actions, each an index batch, a file operation or a change of the writer map.  An operation
that fails, or a crash, leaves the effect of the actions taken so far.

All index batches but one are synced before the call returns; the metadata of a compaction's
destination is not.
-/

namespace Epoch

inductive StoreError
  | ShardUnbound (shard : ShardId)
  | ExtentNotFound (extent : ExtentId)
  | NotWritable (status : ExtentStatus)
  | Sealed
  | Full
  | BodyTooLarge (len : ℕ)
  | BlobMismatch (requested found : BlobId)
  | Extent
  | Index
deriving DecidableEq

structure StorageEngine where
  index : DiskIndex
  files : OrdMap ExtentId Stream
  writers : Finset ExtentId

/-- One step of an operation. -/
inductive EngineAction
  | createFile (extent : ExtentId)
  | appendRecord (extent : ExtentId) (r : Record)
  | truncateTo (extent : ExtentId) (size : ℕ)
  | moveToTrash (extent : ExtentId)
  | putExtentMeta (extent : ExtentId) (m : ExtentMeta)
  | installExtent (extent : ExtentId) (m : ExtentMeta) (blobs : List (BlobId × BlobIndex))
  | commitBlobs (extent : ExtentId) (blobs : List (BlobId × BlobIndex)) (size : UInt64)
  | setExtentStatus (extent : ExtentId) (status : ExtentStatus)
  | tombstoneBlob (extent : ExtentId) (blob : BlobId)
  | swapShardBinding (shard : ShardId) (newExtent oldExtent : ExtentId)
  | removeExtent (extent : ExtentId)
  | stopWriter (extent : ExtentId)
  | spawnWriter (extent : ExtentId)
deriving DecidableEq

namespace StorageEngine

def empty : StorageEngine := ⟨DiskIndex.empty, OrdMap.empty, ∅⟩

/-! ## Actions -/

/-- The tombstoned blobs of a compaction's source, read again just before the rebind. -/
def carried (index : DiskIndex) (source : ExtentId) : List BlobId :=
  ((index.listBlobs source).filter fun b => b.2.isTombstoned).map Prod.fst

/-- The index batch of an action. -/
def batch (index : DiskIndex) : EngineAction → List IndexOp
  | .putExtentMeta extent m => DiskIndex.putExtentMeta extent m
  | .installExtent extent m blobs => DiskIndex.installExtent extent m blobs
  | .commitBlobs extent blobs size => DiskIndex.commitBlobs extent blobs size
  | .setExtentStatus extent status => (index.setExtentStatus extent status).getD []
  | .tombstoneBlob extent blob => (index.tombstoneBlob extent blob).getD []
  | .swapShardBinding shard newExtent oldExtent =>
    index.swapShardBindingWith shard newExtent oldExtent (carried index oldExtent)
  | .removeExtent extent => index.removeExtent extent
  | _ => []

/-- What an action does to the extent files. -/
def touch (files : OrdMap ExtentId Stream) : EngineAction → OrdMap ExtentId Stream
  | .createFile extent => files.insert extent []
  | .appendRecord extent r => files.insert extent ((files.get extent).getD [] ++ [r])
  | .truncateTo extent size => files.insert extent (((files.get extent).getD []).truncateTo size)
  | .moveToTrash extent => files.erase extent
  | _ => files

/-- What an action does to the writer map. -/
def register (writers : Finset ExtentId) : EngineAction → Finset ExtentId
  | .stopWriter extent => writers.erase extent
  | .spawnWriter extent => insert extent writers
  | _ => writers

def perform (engine : StorageEngine) (a : EngineAction) : StorageEngine where
  index := engine.index.write (batch engine.index a)
  files := touch engine.files a
  writers := register engine.writers a

def performAll (engine : StorageEngine) (actions : List EngineAction) : StorageEngine :=
  run perform engine actions

@[simp] lemma performAll_nil (engine : StorageEngine) : engine.performAll [] = engine := rfl

@[simp] lemma performAll_cons (engine : StorageEngine) (a : EngineAction) (actions : List EngineAction) :
    engine.performAll (a :: actions) = (engine.perform a).performAll actions := rfl

lemma performAll_append (engine : StorageEngine) (actions actions' : List EngineAction) :
    engine.performAll (actions ++ actions')
      = (engine.performAll actions).performAll actions' := run_append _ _ _

/-! ## Reads -/

def status (engine : StorageEngine) (extent : ExtentId) : Option ExtentStatus :=
  (engine.index.getExtentMeta extent).map ExtentMeta.status

/-- `write::writable_gate`. -/
def writableGate : ExtentStatus → Except StoreError Unit
  | .Writable | .Rebuilding => .ok ()
  | .Sealed => .error .Sealed
  | .Full => .error .Full
  | .Dropped => .error (.NotWritable .Dropped)

/-- `writable_extent`. -/
def writableExtent (engine : StorageEngine) (shard : ShardId) : Except StoreError ExtentId :=
  match engine.index.getShardBinding shard with
  | none => .error (.ShardUnbound shard)
  | some extent =>
    match engine.index.getExtentMeta extent with
    | none => .error (.ExtentNotFound extent)
    | some m =>
      if m.status = .Rebuilding then .error (.NotWritable .Rebuilding)
      else do
        writableGate m.status
        return extent

/-- `read_blob`. -/
def readBlob (index : DiskIndex) (extent : ExtentId) (f : Stream) (blob : BlobId) :
    Except StoreError (Option Bytes) :=
  match index.getBlob extent blob with
  | none => .ok none
  | some entry =>
    match f.readRecord entry.offset.toNat with
    | none => .error .Extent
    | some r =>
      if r.blobId = blob then .ok (some r.body) else .error (.BlobMismatch blob r.blobId)

/-- `read_shard`. -/
def readShard (engine : StorageEngine) (shard : ShardId) (blob : BlobId) :
    Except StoreError (Option Bytes) :=
  match engine.index.getShardBinding shard with
  | none => .ok none
  | some extent =>
    match engine.files.get extent with
    | none => .error .Extent
    | some f => readBlob engine.index extent f blob

/-! ## Operations -/

/-- A new file, its metadata and binding, and its writer. -/
def installPlan (shard : ShardId) (createTs : Int64) (status : ExtentStatus) : List EngineAction :=
  [.createFile ⟨shard, createTs⟩,
    .installExtent ⟨shard, createTs⟩ (DiskIndex.freshMeta shard status createTs) [],
    .spawnWriter ⟨shard, createTs⟩]

/-- `create_extent_with_status`: nothing for an extent that is installed, else a new file, which
replaces one without metadata. -/
def createPlan (engine : StorageEngine) (shard : ShardId) (createTs : Int64) (status : ExtentStatus) :
    List EngineAction :=
  match engine.files.get ⟨shard, createTs⟩, engine.index.getExtentMeta ⟨shard, createTs⟩ with
  | none, _ => installPlan shard createTs status
  | some _, some _ => []
  | some _, none => .moveToTrash ⟨shard, createTs⟩ :: installPlan shard createTs status

/-- `promote_rebuilt`. -/
def promotePlan (engine : StorageEngine) (extent : ExtentId) : List EngineAction :=
  if engine.status extent = some .Rebuilding then [.setExtentStatus extent .Writable] else []

/-- `seal_extent`. -/
def sealPlan (engine : StorageEngine) (extent : ExtentId) : List EngineAction :=
  if engine.status extent = some .Writable ∨ engine.status extent = some .Full then
    [.stopWriter extent, .setExtentStatus extent .Sealed]
  else []

/-- `delete`: the tombstone goes to the extent the shard is bound to. -/
def deletePlan (engine : StorageEngine) (extent : ExtentId) (blob : BlobId) : List EngineAction :=
  [.tombstoneBlob ((engine.index.getShardBinding extent.shardId).getD extent) blob]

/-- `reclaim_extent`. -/
def reclaimPlan (extent : ExtentId) : List EngineAction :=
  [.moveToTrash extent, .removeExtent extent]

/-- `reclaim_dropped`. -/
def reclaimDroppedPlan (engine : StorageEngine) : List EngineAction :=
  (engine.index.listExtents.filter fun e => e.2.status = .Dropped).flatMap
    fun e => reclaimPlan e.1

/-- `reclaim_orphans`. -/
def reclaimOrphansPlan (engine : StorageEngine) : List EngineAction :=
  (engine.index.listExtents.filter fun e =>
    e.2.status ≠ .Dropped ∧ engine.index.getShardBinding e.2.shardId ≠ some e.1).flatMap
    fun e => reclaimPlan e.1

section Compaction

variable (crc32c : Bytes → UInt32)

/-- A record's index entry. -/
def entryOf (offset : ℕ) (r : Record) : BlobIndex :=
  .new (UInt64.ofNat offset) (UInt32.ofNat r.body.length) (crc32c r.body)

/-- The copy loop: for each live blob its record is read, appended to the destination and committed.
The flag says whether the loop ends without an error. -/
def copyPlan (index : DiskIndex) (source : Stream) (newExtent : ExtentId) :
    Stream → List (BlobId × BlobIndex) → List EngineAction × Bool
  | _, [] => ([], true)
  | dest, b :: live =>
    match source.readRecord b.2.offset.toNat with
    | none => ([], false)
    | some r =>
      if (index.getBlob newExtent b.1).isSome then copyPlan index source newExtent dest live
      else if dest.accepts r.body then
        let copy : Record := ⟨b.1, newExtent.shardId, r.body⟩
        let rest := copyPlan index source newExtent (dest ++ [copy]) live
        (.appendRecord newExtent copy
            :: .commitBlobs newExtent [(b.1, entryOf crc32c dest.writeOffset copy)]
              (UInt64.ofNat (Stream.writeOffset (dest ++ [copy])))
            :: rest.1,
          rest.2)
      else ([], false)

/-- The live entries of an extent. -/
def liveBlobs (index : DiskIndex) (extent : ExtentId) : List (BlobId × BlobIndex) :=
  (index.listBlobs extent).filter fun b => !b.2.isTombstoned

/-- The end of a compaction: rebind, retire the source, register the destination's writer. -/
def rebindPlan (source newExtent : ExtentId) : List EngineAction :=
  [.swapShardBinding source.shardId newExtent source, .moveToTrash source, .removeExtent source,
    .spawnWriter newExtent]

/-- `compact_extent` after the status of the source has been checked. -/
def rewritePlan (engine : StorageEngine) (source : ExtentId) (file : Stream) (newTs : Int64) :
    List EngineAction :=
  let newExtent : ExtentId := ⟨source.shardId, newTs⟩
  let copies := copyPlan crc32c engine.index file newExtent [] (liveBlobs engine.index source)
  .setExtentStatus source .Full ::
    if (engine.files.get newExtent).isSome then []
    else
      .createFile newExtent
        :: .putExtentMeta newExtent (DiskIndex.freshMeta source.shardId .Writable newTs)
        :: copies.1 ++ if copies.2 then rebindPlan source newExtent else []

/-- `compact_blocking`. -/
def compactPlan (engine : StorageEngine) (source : ExtentId) (newTs : Int64) : List EngineAction :=
  .stopWriter source ::
    match engine.files.get source, engine.status source with
    | some file, some .Writable | some file, some .Full =>
      rewritePlan crc32c engine source file newTs
    | _, _ => []

/-- A compaction is refused after it has released the writer, or it rewrites its source. -/
lemma compactPlan_cases (engine : StorageEngine) (source : ExtentId) (newTs : Int64) :
    (compactPlan crc32c engine source newTs = [.stopWriter source]
        ∧ (engine.files.get source = none
          ∨ engine.status source ≠ some .Writable ∧ engine.status source ≠ some .Full))
      ∨ ∃ file, engine.files.get source = some file
        ∧ (engine.status source = some .Writable ∨ engine.status source = some .Full)
        ∧ compactPlan crc32c engine source newTs
          = .stopWriter source :: rewritePlan crc32c engine source file newTs := by
  unfold compactPlan
  cases hfile : engine.files.get source with
  | none => exact Or.inl ⟨rfl, Or.inl rfl⟩
  | some file =>
    rcases hst : engine.status source with - | status
    · exact Or.inl ⟨rfl, Or.inr ⟨by simp, by simp⟩⟩
    · cases status with
      | Writable => exact Or.inr ⟨file, rfl, Or.inl rfl, rfl⟩
      | Full => exact Or.inr ⟨file, rfl, Or.inr rfl, rfl⟩
      | Rebuilding => exact Or.inl ⟨rfl, Or.inr ⟨by simp, by simp⟩⟩
      | Sealed => exact Or.inl ⟨rfl, Or.inr ⟨by simp, by simp⟩⟩
      | Dropped => exact Or.inl ⟨rfl, Or.inr ⟨by simp, by simp⟩⟩

/-- `recover_extent`. -/
def recoverPlan (engine : StorageEngine) (extent : ExtentId) : List EngineAction :=
  match engine.files.get extent with
  | none => []
  | some f =>
    match engine.index.getExtentMeta extent with
    | some m => if m.size.toNat < f.writeOffset then [.truncateTo extent m.size.toNat] else []
    | none =>
      [.installExtent extent
        ⟨extent.shardId, .Writable, UInt64.ofNat f.writeOffset, 0, extent.createTs⟩
        ((f.scan.filter fun e => e.2.shardId = extent.shardId).map
          fun e => (e.2.blobId, entryOf crc32c e.1 e.2))]

/-- The recovery loop over the listed files. -/
def recoverAll (engine : StorageEngine) (order : List ExtentId) : StorageEngine :=
  order.foldl (fun g extent => g.performAll (recoverPlan crc32c g extent)) engine

/-- `spawn_writers_for`. -/
def bound (engine : StorageEngine) (extent : ExtentId) : Bool :=
  match engine.index.getExtentMeta extent with
  | some m => m.status = .Writable ∧ engine.index.getShardBinding m.shardId = some extent
  | none => false

/-- `open`, with the extent files as the directory lists them. -/
def reopen (engine : StorageEngine) (order : List ExtentId) : StorageEngine :=
  let recovered := recoverAll crc32c { engine with writers := ∅ } order
  { recovered with writers := (order.filter recovered.bound).toFinset }

end Compaction

/-! ## What the actions do -/

/-- The status of `extent` after an action, from its status before. -/
def statusAfter (extent : ExtentId) (old : Option ExtentStatus) :
    EngineAction → Option ExtentStatus
  | .putExtentMeta extent' m => if extent' = extent then some m.status else old
  | .installExtent extent' m _ => if extent' = extent then some m.status else old
  | .setExtentStatus extent' status => if extent' = extent then old.map fun _ => status else old
  | .swapShardBinding _ _ oldExtent =>
    if oldExtent = extent then old.map fun _ => .Dropped else old
  | .removeExtent extent' => if extent' = extent then none else old
  | _ => old

/-- The binding of a slot after an action. -/
def bindingAfter (slot : UInt64) (old : Option ExtentId) : EngineAction → Option ExtentId
  | .installExtent extent m _ => if shardPrefix m.shardId = slot then some extent else old
  | .swapShardBinding shard newExtent _ =>
    if shardPrefix shard = slot then some newExtent else old
  | _ => old

/-- Only a status operand changes the status. -/
lemma map_status_mergeAt (extents : OrdMap ExtentId ExtentMeta) (extent extent' : ExtentId)
    {op : MetaMergeOp} (hop : ∀ m, (op.apply m).status = m.status) :
    ((DiskIndex.mergeAt extents extent' op).get extent).map ExtentMeta.status
      = (extents.get extent).map ExtentMeta.status := by
  rw [DiskIndex.get_mergeAt]
  split_ifs with h
  · cases extents.get extent with
    | none => rfl
    | some m => exact congrArg some (hop m)
  · rfl

lemma map_status_mergeAt_setStatus (extents : OrdMap ExtentId ExtentMeta)
    (extent extent' : ExtentId) (status : ExtentStatus) :
    ((DiskIndex.mergeAt extents extent' (.SetStatus status)).get extent).map ExtentMeta.status
      = if extent' = extent then ((extents.get extent).map ExtentMeta.status).map fun _ => status
        else (extents.get extent).map ExtentMeta.status := by
  rw [DiskIndex.get_mergeAt]
  split_ifs with h
  · cases extents.get extent <;> rfl
  · rfl

lemma status_perform (engine : StorageEngine) (a : EngineAction) (extent : ExtentId) :
    (engine.perform a).status extent = statusAfter extent (engine.status extent) a := by
  unfold status perform DiskIndex.getExtentMeta
  cases a with
  | putExtentMeta extent' m =>
    show ((engine.index.extents.insert extent' m).get extent).map ExtentMeta.status = _
    simp only [statusAfter, OrdMap.get_insert]
    split_ifs <;> rfl
  | installExtent extent' m blobs =>
    simp only [statusAfter, batch, DiskIndex.write_installExtent, OrdMap.get_insert]
    split_ifs <;> rfl
  | commitBlobs extent' blobs size =>
    simp only [statusAfter, batch, DiskIndex.write_commitBlobs]
    exact map_status_mergeAt _ _ _ fun m => MetaMergeOp.status_setSize m size
  | setExtentStatus extent' status =>
    simp only [statusAfter, batch, DiskIndex.setExtentStatus, DiskIndex.getExtentMeta]
    cases hget : engine.index.extents.get extent' with
    | none =>
      split_ifs with h
      · subst h
        simp [hget]
      · rfl
    | some m => exact map_status_mergeAt_setStatus _ _ _ _
  | tombstoneBlob extent' blob =>
    simp only [statusAfter, batch]
    cases hbatch : engine.index.tombstoneBlob extent' blob with
    | none => rfl
    | some ops =>
      obtain ⟨entry, -, -, hwrite⟩ := DiskIndex.tombstoneBlob_eq_some hbatch
      rw [Option.getD_some, hwrite]
      exact map_status_mergeAt _ _ _ fun m => MetaMergeOp.status_addDeletedBytes m _
  | swapShardBinding shard newExtent oldExtent =>
    simp only [statusAfter, batch, DiskIndex.write_swapShardBindingWith]
    rw [← map_status_mergeAt_setStatus]
    split_ifs
    · exact map_status_mergeAt _ _ _ fun m => MetaMergeOp.status_addDeletedBytes m _
    · rfl
  | removeExtent extent' =>
    simp only [statusAfter, batch, DiskIndex.write_removeExtent, OrdMap.get_erase]
    split_ifs <;> rfl
  | _ => rfl

lemma binding_perform (engine : StorageEngine) (a : EngineAction) (slot : UInt64) :
    (engine.perform a).index.bindings.get slot
      = bindingAfter slot (engine.index.bindings.get slot) a := by
  unfold perform
  cases a with
  | installExtent extent m blobs =>
    simp only [bindingAfter, batch, DiskIndex.write_installExtent, OrdMap.get_insert]
    split_ifs <;> rfl
  | commitBlobs extent blobs size => simp only [bindingAfter, batch, DiskIndex.write_commitBlobs]
  | setExtentStatus extent status =>
    simp only [bindingAfter, batch, DiskIndex.setExtentStatus]
    cases engine.index.getExtentMeta extent <;> rfl
  | tombstoneBlob extent blob =>
    simp only [bindingAfter, batch]
    cases hbatch : engine.index.tombstoneBlob extent blob with
    | none => rfl
    | some ops =>
      obtain ⟨entry, -, -, hwrite⟩ := DiskIndex.tombstoneBlob_eq_some hbatch
      rw [Option.getD_some, hwrite]
  | swapShardBinding shard newExtent oldExtent =>
    simp only [bindingAfter, batch, DiskIndex.write_swapShardBindingWith, OrdMap.get_insert]
    split_ifs <;> rfl
  | removeExtent extent => simp only [bindingAfter, batch, DiskIndex.write_removeExtent]
  | _ => rfl

lemma shardId_of_mergeAt {extents : OrdMap ExtentId ExtentMeta} {extent extent' : ExtentId}
    {op : MetaMergeOp} {m' : ExtentMeta}
    (h : (DiskIndex.mergeAt extents extent' op).get extent = some m') :
    ∃ m, extents.get extent = some m ∧ m'.shardId = m.shardId := by
  rw [DiskIndex.get_mergeAt] at h
  split_ifs at h
  · obtain ⟨m, hm, rfl⟩ := Option.map_eq_some_iff.mp h
    exact ⟨m, hm, by cases op <;> rfl⟩
  · exact ⟨m', h, rfl⟩

/-- Metadata names the shard it was written with. -/
lemma getExtentMeta_perform {engine : StorageEngine} {a : EngineAction} {extent : ExtentId}
    {m' : ExtentMeta} (h : (engine.perform a).index.getExtentMeta extent = some m') :
    (∃ m, engine.index.getExtentMeta extent = some m ∧ m'.shardId = m.shardId)
      ∨ a = .putExtentMeta extent m' ∨ ∃ blobs, a = .installExtent extent m' blobs := by
  unfold perform DiskIndex.getExtentMeta at h
  cases a with
  | putExtentMeta extent' m =>
    change (engine.index.extents.insert extent' m).get extent = some m' at h
    rw [OrdMap.get_insert] at h
    split_ifs at h with heq
    · obtain rfl := Option.some.inj h
      exact Or.inr (Or.inl (by rw [heq]))
    · exact Or.inl ⟨m', h, rfl⟩
  | installExtent extent' m blobs =>
    simp only [batch, DiskIndex.write_installExtent, OrdMap.get_insert] at h
    split_ifs at h with heq
    · obtain rfl := Option.some.inj h
      exact Or.inr (Or.inr ⟨blobs, by rw [heq]⟩)
    · exact Or.inl ⟨m', h, rfl⟩
  | commitBlobs extent' blobs size =>
    simp only [batch, DiskIndex.write_commitBlobs] at h
    exact Or.inl (shardId_of_mergeAt h)
  | setExtentStatus extent' status =>
    simp only [batch, DiskIndex.setExtentStatus] at h
    cases hget : engine.index.getExtentMeta extent' with
    | none =>
      simp only [hget, Option.getD_none, DiskIndex.write_nil] at h
      exact Or.inl ⟨m', h, rfl⟩
    | some m =>
      simp only [hget, Option.getD_some] at h
      exact Or.inl (shardId_of_mergeAt h)
  | tombstoneBlob extent' blob =>
    simp only [batch] at h
    cases hbatch : engine.index.tombstoneBlob extent' blob with
    | none =>
      simp only [hbatch, Option.getD_none, DiskIndex.write_nil] at h
      exact Or.inl ⟨m', h, rfl⟩
    | some ops =>
      obtain ⟨entry, -, -, hwrite⟩ := DiskIndex.tombstoneBlob_eq_some hbatch
      simp only [hbatch, Option.getD_some, hwrite] at h
      exact Or.inl (shardId_of_mergeAt h)
  | swapShardBinding shard newExtent oldExtent =>
    simp only [batch, DiskIndex.write_swapShardBindingWith] at h
    left
    split_ifs at h
    · obtain ⟨m, hm, hshard⟩ := shardId_of_mergeAt h
      obtain ⟨m₀, hm₀, hshard₀⟩ := shardId_of_mergeAt hm
      exact ⟨m₀, hm₀, hshard.trans hshard₀⟩
    · exact shardId_of_mergeAt h
  | removeExtent extent' =>
    simp only [batch, DiskIndex.write_removeExtent, OrdMap.get_erase] at h
    split_ifs at h
    exact Or.inl ⟨m', h, rfl⟩
  | _ => exact Or.inl ⟨m', h, rfl⟩

end StorageEngine

end Epoch
