import Epoch.Store.MetaMerge
import Epoch.Store.Record

/-!
# The per-disk index (`index.rs`)

The index has three keyspaces: the metadata of each extent, the extent each shard slot is bound to,
and the entry of each blob record.  Every mutator is one atomic batch.  Metadata fields change by
merge operands, which fold over the stored value; operands for an extent without metadata stay
pending and leave it without.
-/

namespace Epoch

/-- A blob record's entry. -/
structure BlobIndex where
  offset : UInt64
  size : UInt32
  crc : UInt32
  flags : UInt8
deriving DecidableEq

namespace BlobIndex

def FLAG_TOMBSTONE : UInt8 := 1

def isTombstoned (entry : BlobIndex) : Bool := entry.flags &&& FLAG_TOMBSTONE ≠ 0

/-- A live entry. -/
def new (offset : UInt64) (size crc : UInt32) : BlobIndex := ⟨offset, size, crc, 0⟩

/-- The entry with the tombstone flag set. -/
def tombstoned (entry : BlobIndex) : BlobIndex :=
  { entry with flags := entry.flags ||| FLAG_TOMBSTONE }

@[simp] lemma isTombstoned_new (offset : UInt64) (size crc : UInt32) :
    (new offset size crc).isTombstoned = false := decide_eq_false (by simp [new])

@[simp] lemma isTombstoned_tombstoned (entry : BlobIndex) :
    entry.tombstoned.isTombstoned = true := by
  have h : ∀ f : UInt8, (f ||| 1) &&& 1 ≠ 0 := by decide +kernel
  exact decide_eq_true (h entry.flags)

end BlobIndex

/-- Entries are sorted by extent and blob. -/
abbrev BlobKey := ExtentId ×ₗ BlobId

structure DiskIndex where
  extents : OrdMap ExtentId ExtentMeta
  bindings : OrdMap UInt64 ExtentId
  blobs : OrdMap BlobKey BlobIndex

/-- One op of a write batch. -/
inductive IndexOp
  | putMeta (extent : ExtentId) (m : ExtentMeta)
  | mergeMeta (extent : ExtentId) (op : MetaMergeOp)
  | deleteMeta (extent : ExtentId)
  | putBinding (shard : ShardId) (extent : ExtentId)
  | putBlob (extent : ExtentId) (blob : BlobId) (entry : BlobIndex)
  | deleteBlob (extent : ExtentId) (blob : BlobId)
deriving DecidableEq

namespace DiskIndex

def empty : DiskIndex := ⟨OrdMap.empty, OrdMap.empty, OrdMap.empty⟩

/-! ## Reads -/

def getExtentMeta (index : DiskIndex) (extent : ExtentId) : Option ExtentMeta :=
  index.extents.get extent

def getShardBinding (index : DiskIndex) (shard : ShardId) : Option ExtentId :=
  index.bindings.get (shardPrefix shard)

def getBlob (index : DiskIndex) (extent : ExtentId) (blob : BlobId) : Option BlobIndex :=
  index.blobs.get (toLex (extent, blob))

/-- The entries of an extent, by blob id. -/
def listBlobs (index : DiskIndex) (extent : ExtentId) : List (BlobId × BlobIndex) :=
  (index.blobs.toList.filter fun e => (ofLex e.1).1 = extent).map fun e => ((ofLex e.1).2, e.2)

def listExtents (index : DiskIndex) : List (ExtentId × ExtentMeta) := index.extents.toList

variable {extent : ExtentId} {blob : BlobId}

variable {index : DiskIndex} {blobs : OrdMap BlobKey BlobIndex} {puts : List (BlobId × BlobIndex)}

lemma mem_listBlobs {entry : BlobIndex} :
    (blob, entry) ∈ index.listBlobs extent ↔ index.getBlob extent blob = some entry := by
  simp only [listBlobs, List.mem_map, List.mem_filter, decide_eq_true_eq, getBlob]
  constructor
  · rintro ⟨⟨key, v⟩, ⟨hmem, hext⟩, heq⟩
    obtain ⟨rfl, rfl⟩ := Prod.mk.injEq _ _ _ _ ▸ heq
    rw [← hext]
    exact (index.blobs.mem_toList_iff _ _).mp hmem
  · intro hget
    exact ⟨(toLex (extent, blob), entry), ⟨(index.blobs.mem_toList_iff _ _).mpr hget, rfl⟩, rfl⟩

/-! ## Batches -/

/-- An operand at one extent's metadata. -/
def mergeAt (extents : OrdMap ExtentId ExtentMeta) (extent : ExtentId) (op : MetaMergeOp) :
    OrdMap ExtentId ExtentMeta :=
  match extents.get extent with
  | none => extents
  | some m => extents.insert extent (op.apply m)

lemma get_mergeAt (extents : OrdMap ExtentId ExtentMeta) (extent extent' : ExtentId)
    (op : MetaMergeOp) :
    (mergeAt extents extent op).get extent'
      = if extent = extent' then (extents.get extent').map op.apply else extents.get extent' := by
  unfold mergeAt
  split_ifs with h
  · subst h
    cases hget : extents.get extent <;> simp [hget]
  · cases hget : extents.get extent <;> simp [h]

def applyOp (index : DiskIndex) : IndexOp → DiskIndex
  | .putMeta extent m => { index with extents := index.extents.insert extent m }
  | .mergeMeta extent op => { index with extents := mergeAt index.extents extent op }
  | .deleteMeta extent => { index with extents := index.extents.erase extent }
  | .putBinding shard extent =>
    { index with bindings := index.bindings.insert (shardPrefix shard) extent }
  | .putBlob extent blob entry =>
    { index with blobs := index.blobs.insert (toLex (extent, blob)) entry }
  | .deleteBlob extent blob => { index with blobs := index.blobs.erase (toLex (extent, blob)) }

def write (index : DiskIndex) (batch : List IndexOp) : DiskIndex := batch.foldl applyOp index

lemma write_append (index : DiskIndex) (batch batch' : List IndexOp) :
    index.write (batch ++ batch') = (index.write batch).write batch' := List.foldl_append

lemma write_cons (index : DiskIndex) (op : IndexOp) (batch : List IndexOp) :
    index.write (op :: batch) = (index.applyOp op).write batch := rfl

@[simp] lemma write_nil (index : DiskIndex) : index.write [] = index := rfl

/-- The writes of blob entries that a list of puts makes. -/
def blobPuts (extent : ExtentId) (blobs : List (BlobId × BlobIndex)) :
    List (BlobKey × Option BlobIndex) :=
  blobs.map fun b => (toLex (extent, b.1), some b.2)

lemma write_putBlobs (index : DiskIndex) (extent : ExtentId) (blobs : List (BlobId × BlobIndex)) :
    index.write (blobs.map fun b => .putBlob extent b.1 b.2)
      = { index with blobs := index.blobs.writeAll (blobPuts extent blobs) } := by
  induction blobs generalizing index with
  | nil => rfl
  | cons b blobs ih => rw [List.map_cons, write_cons, ih]; rfl

lemma write_deleteBlobs (index : DiskIndex) (extent : ExtentId)
    (blobs : List (BlobId × BlobIndex)) :
    index.write (blobs.map fun b => .deleteBlob extent b.1)
      = { index with
          blobs := index.blobs.writeAll (blobs.map fun b => (toLex (extent, b.1), none)) } := by
  induction blobs generalizing index with
  | nil => rfl
  | cons b blobs ih => rw [List.map_cons, write_cons, ih]; rfl

/-! ## Mutators -/

/-- The metadata a created extent starts with. -/
def freshMeta (shard : ShardId) (status : ExtentStatus) (createTs : Int64) : ExtentMeta :=
  ⟨shard, status, UInt64.ofNat EXTENT_HEADER_LEN, 0, createTs⟩

/-- `put_extent_meta`, the only batch that is not synced. -/
def putExtentMeta (extent : ExtentId) (m : ExtentMeta) : List IndexOp := [.putMeta extent m]

def commitBlobs (extent : ExtentId) (blobs : List (BlobId × BlobIndex)) (size : UInt64) :
    List IndexOp :=
  blobs.map (fun b => .putBlob extent b.1 b.2) ++ [.mergeMeta extent (.SetSize size)]

/-- Metadata, binding and entries of an extent in one batch. -/
def installExtent (extent : ExtentId) (m : ExtentMeta) (blobs : List (BlobId × BlobIndex)) :
    List IndexOp :=
  [.putMeta extent m, .putBinding m.shardId extent]
    ++ blobs.map fun b => .putBlob extent b.1 b.2

/-- `tombstone_blob`; `none` if there is nothing to tombstone. -/
def tombstoneBlob (index : DiskIndex) (extent : ExtentId) (blob : BlobId) :
    Option (List IndexOp) :=
  match index.getBlob extent blob with
  | none => none
  | some entry =>
    if entry.isTombstoned then none
    else
      some [.putBlob extent blob entry.tombstoned,
        .mergeMeta extent (.AddDeletedBytes (UInt64.ofNat (recordOnDiskLen entry.size)))]

/-- The entries that `swap_shard_binding_with` tombstones on the new extent. -/
def carriedEntries (index : DiskIndex) (extent : ExtentId) (carried : List BlobId) :
    List (BlobId × BlobIndex) :=
  carried.filterMap fun blob =>
    match index.getBlob extent blob with
    | none => none
    | some entry => if entry.isTombstoned then none else some (blob, entry)

/-- `swap_shard_binding_with`: rebind the shard, drop the old extent and tombstone the carried blobs
on the new one. -/
def swapShardBindingWith (index : DiskIndex) (shard : ShardId) (newExtent oldExtent : ExtentId)
    (carried : List BlobId) : List IndexOp :=
  let entries := index.carriedEntries newExtent carried
  let carriedBytes := (entries.map fun b => UInt64.ofNat (recordOnDiskLen b.2.size)).sum
  [.putBinding shard newExtent, .mergeMeta oldExtent (.SetStatus .Dropped)]
    ++ entries.map (fun b => .putBlob newExtent b.1 b.2.tombstoned)
    ++ if 0 < carriedBytes then [.mergeMeta newExtent (.AddDeletedBytes carriedBytes)] else []

/-- `set_extent_status`; `none` if the extent has no metadata. -/
def setExtentStatus (index : DiskIndex) (extent : ExtentId) (status : ExtentStatus) :
    Option (List IndexOp) :=
  match index.getExtentMeta extent with
  | none => none
  | some _ => some [.mergeMeta extent (.SetStatus status)]

def sealExtent (index : DiskIndex) (extent : ExtentId) : Option (List IndexOp) :=
  index.setExtentStatus extent .Sealed

/-- `remove_extent`: metadata and entries; the binding stays. -/
def removeExtent (index : DiskIndex) (extent : ExtentId) : List IndexOp :=
  .deleteMeta extent :: (index.listBlobs extent).map fun b => .deleteBlob extent b.1

/-! ## What the batches do -/

lemma write_commitBlobs (index : DiskIndex) (extent : ExtentId) (blobs : List (BlobId × BlobIndex))
    (size : UInt64) :
    index.write (commitBlobs extent blobs size)
      = { index with
          extents := mergeAt index.extents extent (.SetSize size)
          blobs := index.blobs.writeAll (blobPuts extent blobs) } := by
  rw [commitBlobs, write_append, write_putBlobs]
  rfl

lemma write_installExtent (index : DiskIndex) (extent : ExtentId) (m : ExtentMeta)
    (blobs : List (BlobId × BlobIndex)) :
    index.write (installExtent extent m blobs)
      = { extents := index.extents.insert extent m
          bindings := index.bindings.insert (shardPrefix m.shardId) extent
          blobs := index.blobs.writeAll (blobPuts extent blobs) } := by
  rw [installExtent, write_append, write_putBlobs]
  rfl

/-- A tombstone finds a live entry, or there is none. -/
lemma tombstoneBlob_eq_some {batch : List IndexOp}
    (h : index.tombstoneBlob extent blob = some batch) :
    ∃ entry, index.getBlob extent blob = some entry ∧ entry.isTombstoned = false
      ∧ index.write batch
        = { index with
            extents := mergeAt index.extents extent
              (.AddDeletedBytes (UInt64.ofNat (recordOnDiskLen entry.size)))
            blobs := index.blobs.write (toLex (extent, blob), some entry.tombstoned) } := by
  unfold tombstoneBlob at h
  cases hget : index.getBlob extent blob with
  | none => simp [hget] at h
  | some entry =>
    simp only [hget] at h
    split_ifs at h with ht
    obtain rfl := Option.some.inj h
    exact ⟨entry, rfl, by simpa using ht, rfl⟩

/-- The bytes of a list of entries, as the source adds them up. -/
def carriedBytes (entries : List (BlobId × BlobIndex)) : UInt64 :=
  (entries.map fun b => UInt64.ofNat (recordOnDiskLen b.2.size)).sum

lemma write_swapShardBindingWith (index : DiskIndex) (shard : ShardId)
    (newExtent oldExtent : ExtentId) (carried : List BlobId) :
    index.write (index.swapShardBindingWith shard newExtent oldExtent carried)
      = { extents :=
            if 0 < carriedBytes (index.carriedEntries newExtent carried) then
              mergeAt (mergeAt index.extents oldExtent (.SetStatus .Dropped)) newExtent
                (.AddDeletedBytes (carriedBytes (index.carriedEntries newExtent carried)))
            else mergeAt index.extents oldExtent (.SetStatus .Dropped)
          bindings := index.bindings.insert (shardPrefix shard) newExtent
          blobs := index.blobs.writeAll (blobPuts newExtent
            ((index.carriedEntries newExtent carried).map fun b => (b.1, b.2.tombstoned))) } := by
  have hputs : (index.carriedEntries newExtent carried).map
        (fun b => IndexOp.putBlob newExtent b.1 b.2.tombstoned)
      = ((index.carriedEntries newExtent carried).map fun b => (b.1, b.2.tombstoned)).map
        fun b => IndexOp.putBlob newExtent b.1 b.2 := by
    rw [List.map_map]
    rfl
  unfold swapShardBindingWith carriedBytes
  rw [write_append, write_append, hputs, write_putBlobs]
  split_ifs <;> rfl

lemma write_removeExtent (index : DiskIndex) (extent : ExtentId) :
    index.write (index.removeExtent extent)
      = { index with
          extents := index.extents.erase extent
          blobs := index.blobs.writeAll
            ((index.listBlobs extent).map fun b => (toLex (extent, b.1), none)) } := by
  rw [removeExtent, write_cons, write_deleteBlobs]
  rfl

/-! ## Entries after puts -/

/-- An entry that a list of puts names once. -/
lemma get_blobPuts_of_mem (hnd : (puts.map Prod.fst).Nodup) {b : BlobId × BlobIndex}
    (hb : b ∈ puts) :
    (blobs.writeAll (blobPuts extent puts)).get (toLex (extent, b.1)) = some b.2 := by
  refine OrdMap.get_writeAll_of_forall (List.mem_map.mpr ⟨b, hb, rfl⟩) ?_
  intro o ho
  obtain ⟨b', hb', heq⟩ := List.mem_map.mp ho
  obtain ⟨hkey, rfl⟩ := Prod.mk.inj heq
  have hid : b'.1 = b.1 := (Prod.mk.inj (toLex_inj.mp hkey)).2
  rw [List.inj_on_of_nodup_map hnd hb' hb hid]

/-- An entry that no put names. -/
lemma get_blobPuts_of_notMem {extent' : ExtentId}
    (h : extent' = extent → blob ∉ puts.map Prod.fst) :
    (blobs.writeAll (blobPuts extent puts)).get (toLex (extent', blob))
      = blobs.get (toLex (extent', blob)) := by
  apply OrdMap.get_writeAll_of_notMem
  intro hmem
  simp only [blobPuts, List.map_map] at hmem
  obtain ⟨b, hb, hkey⟩ := List.mem_map.mp hmem
  obtain ⟨hext, hid⟩ := Prod.mk.inj (toLex_inj.mp hkey)
  exact h hext.symm (List.mem_map.mpr ⟨b, hb, hid⟩)

end DiskIndex

end Epoch
