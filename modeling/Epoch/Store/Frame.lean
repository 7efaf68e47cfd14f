import Epoch.Store.Engine

/-!
# What actions leave alone

An action touches the metadata, entries and file of the extents it names and of no other.
`Untouched` says that an extent is the same in two engine states; it is transitive, so an operation
leaves alone every extent that none of its actions touches.
-/

namespace Epoch

namespace EngineAction

/-- The extents whose metadata, entries or file an action changes. -/
def touches : EngineAction → List ExtentId
  | .createFile extent | .appendRecord extent _ | .truncateTo extent _ | .moveToTrash extent
  | .putExtentMeta extent _ | .installExtent extent _ _ | .commitBlobs extent _ _
  | .setExtentStatus extent _ | .tombstoneBlob extent _ | .removeExtent extent => [extent]
  | .swapShardBinding _ newExtent oldExtent => [newExtent, oldExtent]
  | .stopWriter _ | .spawnWriter _ => []

end EngineAction

namespace DiskIndex

lemma mergeAt_get_of_ne {extents : OrdMap ExtentId ExtentMeta} {extent extent' : ExtentId}
    (h : extent' ≠ extent) (op : MetaMergeOp) :
    (mergeAt extents extent' op).get extent = extents.get extent := by
  rw [get_mergeAt, if_neg h]

lemma get_removeBlobs (index : DiskIndex) (extent extent' : ExtentId) (blob : BlobId) :
    (index.blobs.writeAll ((index.listBlobs extent').map
        fun b => (toLex (extent', b.1), none))).get (toLex (extent, blob))
      = if extent' = extent then none else index.blobs.get (toLex (extent, blob)) := by
  have hkeys : (index.listBlobs extent').map
        (fun b => ((toLex (extent', b.1) : BlobKey), (none : Option BlobIndex)))
      = ((index.listBlobs extent').map fun b => (toLex (extent', b.1) : BlobKey)).map
        fun key => (key, none) := by
    rw [List.map_map]
    rfl
  rw [hkeys, OrdMap.get_writeAll_deletes]
  split_ifs with hmem heq heq
  · rfl
  · obtain ⟨b, -, hkey⟩ := List.mem_map.mp hmem
    exact absurd (Prod.mk.inj (toLex_inj.mp hkey)).1 heq
  · subst heq
    cases hget : index.blobs.get (toLex (extent', blob)) with
    | none => rfl
    | some entry =>
      exact absurd (List.mem_map.mpr ⟨(blob, entry), mem_listBlobs.mpr hget, rfl⟩) hmem
  · rfl

lemma mem_carriedEntries {index : DiskIndex} {extent : ExtentId} {blobs : List BlobId}
    {b : BlobId × BlobIndex} (h : b ∈ index.carriedEntries extent blobs) :
    b.1 ∈ blobs ∧ index.getBlob extent b.1 = some b.2 := by
  obtain ⟨blob, hmem, heq⟩ := List.mem_filterMap.mp h
  cases hget : index.getBlob extent blob with
  | none => simp [hget] at heq
  | some entry =>
    simp only [hget] at heq
    split_ifs at heq
    obtain rfl := Option.some.inj heq
    exact ⟨hmem, hget⟩

end DiskIndex

namespace StorageEngine

/-- An extent's metadata, entries and file are the same. -/
structure Untouched (extent : ExtentId) (engine engine' : StorageEngine) : Prop where
  meta_eq : engine'.index.getExtentMeta extent = engine.index.getExtentMeta extent
  blob_eq : ∀ blob, engine'.index.getBlob extent blob = engine.index.getBlob extent blob
  file_eq : engine'.files.get extent = engine.files.get extent

variable {extent : ExtentId} {engine engine' engine'' : StorageEngine}

lemma Untouched.refl (extent : ExtentId) (engine : StorageEngine) :
    Untouched extent engine engine := ⟨rfl, fun _ => rfl, rfl⟩

lemma Untouched.trans (h : Untouched extent engine engine')
    (h' : Untouched extent engine' engine'') : Untouched extent engine engine'' :=
  ⟨h'.meta_eq.trans h.meta_eq, fun blob => (h'.blob_eq blob).trans (h.blob_eq blob),
    h'.file_eq.trans h.file_eq⟩

lemma touch_of_notMem {files : OrdMap ExtentId Stream} {a : EngineAction}
    (h : extent ∉ a.touches) : (touch files a).get extent = files.get extent := by
  cases a with
  | createFile extent' =>
    rw [touch, OrdMap.get_insert, if_neg]
    rintro rfl
    exact h List.mem_cons_self
  | appendRecord extent' r =>
    rw [touch, OrdMap.get_insert, if_neg]
    rintro rfl
    exact h List.mem_cons_self
  | truncateTo extent' size =>
    rw [touch, OrdMap.get_insert, if_neg]
    rintro rfl
    exact h List.mem_cons_self
  | moveToTrash extent' =>
    rw [touch, OrdMap.get_erase, if_neg]
    rintro rfl
    exact h List.mem_cons_self
  | _ => rfl

/-- The metadata and entries of an extent that an action's batch does not name. -/
lemma write_batch_of_notMem {index : DiskIndex} {a : EngineAction} (h : extent ∉ a.touches) :
    (index.write (batch index a)).getExtentMeta extent = index.getExtentMeta extent
      ∧ ∀ blob, (index.write (batch index a)).getBlob extent blob = index.getBlob extent blob := by
  unfold DiskIndex.getExtentMeta DiskIndex.getBlob
  cases a with
  | putExtentMeta extent' m =>
    have hne : extent' ≠ extent := fun heq => h (heq ▸ List.mem_cons_self)
    refine ⟨?_, fun _ => rfl⟩
    show (index.extents.insert extent' m).get extent = _
    rw [OrdMap.get_insert, if_neg hne]
  | installExtent extent' m blobs =>
    have hne : extent' ≠ extent := fun heq => h (heq ▸ List.mem_cons_self)
    simp only [batch, DiskIndex.write_installExtent]
    refine ⟨by rw [OrdMap.get_insert, if_neg hne], fun blob => ?_⟩
    exact DiskIndex.get_blobPuts_of_notMem fun heq => absurd heq hne.symm
  | commitBlobs extent' blobs size =>
    have hne : extent' ≠ extent := fun heq => h (heq ▸ List.mem_cons_self)
    simp only [batch, DiskIndex.write_commitBlobs]
    refine ⟨DiskIndex.mergeAt_get_of_ne hne _, fun blob => ?_⟩
    exact DiskIndex.get_blobPuts_of_notMem fun heq => absurd heq hne.symm
  | setExtentStatus extent' status =>
    have hne : extent' ≠ extent := fun heq => h (heq ▸ List.mem_cons_self)
    simp only [batch, DiskIndex.setExtentStatus]
    cases index.getExtentMeta extent' with
    | none => exact ⟨rfl, fun _ => rfl⟩
    | some m => exact ⟨DiskIndex.mergeAt_get_of_ne hne _, fun _ => rfl⟩
  | tombstoneBlob extent' blob =>
    have hne : extent' ≠ extent := fun heq => h (heq ▸ List.mem_cons_self)
    simp only [batch]
    cases hbatch : index.tombstoneBlob extent' blob with
    | none => exact ⟨rfl, fun _ => rfl⟩
    | some ops =>
      obtain ⟨entry, -, -, hwrite⟩ := DiskIndex.tombstoneBlob_eq_some hbatch
      rw [Option.getD_some, hwrite]
      refine ⟨DiskIndex.mergeAt_get_of_ne hne _, fun blob' => ?_⟩
      rw [OrdMap.get_write, if_neg]
      intro hkey
      exact hne (Prod.mk.inj (toLex_inj.mp hkey)).1
  | swapShardBinding shard newExtent oldExtent =>
    have hnew : newExtent ≠ extent := fun heq => h (heq ▸ List.mem_cons_self)
    have hold : oldExtent ≠ extent :=
      fun heq => h (heq ▸ List.mem_cons_of_mem _ List.mem_cons_self)
    simp only [batch, DiskIndex.write_swapShardBindingWith]
    refine ⟨?_, fun blob => ?_⟩
    · split_ifs
      · rw [DiskIndex.mergeAt_get_of_ne hnew, DiskIndex.mergeAt_get_of_ne hold]
      · rw [DiskIndex.mergeAt_get_of_ne hold]
    · exact DiskIndex.get_blobPuts_of_notMem fun heq => absurd heq hnew.symm
  | removeExtent extent' =>
    have hne : extent' ≠ extent := fun heq => h (heq ▸ List.mem_cons_self)
    simp only [batch, DiskIndex.write_removeExtent]
    refine ⟨by rw [OrdMap.get_erase, if_neg hne], fun blob => ?_⟩
    rw [DiskIndex.get_removeBlobs, if_neg hne]
  | _ => exact ⟨rfl, fun _ => rfl⟩

/-- An entry after an action is an old one, maybe tombstoned since, or the action put it. -/
lemma getBlob_perform {a : EngineAction} {blob : BlobId} {entry : BlobIndex}
    (h : (engine.perform a).index.getBlob extent blob = some entry) :
    (∃ old, engine.index.getBlob extent blob = some old ∧ entry.offset = old.offset
        ∧ (old.isTombstoned = true → entry.isTombstoned = true))
      ∨ (∃ blobs size, a = .commitBlobs extent blobs size ∧ (blob, entry) ∈ blobs)
      ∨ ∃ m blobs, a = .installExtent extent m blobs ∧ (blob, entry) ∈ blobs := by
  unfold perform DiskIndex.getBlob at h
  cases a with
  | installExtent extent' m blobs =>
    simp only [batch, DiskIndex.write_installExtent] at h
    rcases OrdMap.get_writeAll_eq_some h with hput | hold
    · obtain ⟨b, hb, heq⟩ := List.mem_map.mp hput
      obtain ⟨hkey, hval⟩ := Prod.mk.inj heq
      obtain ⟨rfl, rfl⟩ := Prod.mk.inj (toLex_inj.mp hkey)
      obtain rfl := Option.some.inj hval
      exact Or.inr (Or.inr ⟨m, blobs, rfl, hb⟩)
    · exact Or.inl ⟨entry, hold, rfl, id⟩
  | commitBlobs extent' blobs size =>
    simp only [batch, DiskIndex.write_commitBlobs] at h
    rcases OrdMap.get_writeAll_eq_some h with hput | hold
    · obtain ⟨b, hb, heq⟩ := List.mem_map.mp hput
      obtain ⟨hkey, hval⟩ := Prod.mk.inj heq
      obtain ⟨rfl, rfl⟩ := Prod.mk.inj (toLex_inj.mp hkey)
      obtain rfl := Option.some.inj hval
      exact Or.inr (Or.inl ⟨blobs, size, rfl, hb⟩)
    · exact Or.inl ⟨entry, hold, rfl, id⟩
  | setExtentStatus extent' status =>
    simp only [batch, DiskIndex.setExtentStatus] at h
    cases hget : engine.index.getExtentMeta extent' with
    | none =>
      simp only [hget, Option.getD_none, DiskIndex.write_nil] at h
      exact Or.inl ⟨entry, h, rfl, id⟩
    | some m =>
      simp only [hget, Option.getD_some] at h
      exact Or.inl ⟨entry, h, rfl, id⟩
  | tombstoneBlob extent' blob' =>
    simp only [batch] at h
    cases hbatch : engine.index.tombstoneBlob extent' blob' with
    | none =>
      simp only [hbatch, Option.getD_none, DiskIndex.write_nil] at h
      exact Or.inl ⟨entry, h, rfl, id⟩
    | some ops =>
      obtain ⟨old, hget, -, hwrite⟩ := DiskIndex.tombstoneBlob_eq_some hbatch
      simp only [hbatch, Option.getD_some, hwrite, OrdMap.get_write] at h
      split_ifs at h with hkey
      · obtain ⟨rfl, rfl⟩ := Prod.mk.inj (toLex_inj.mp hkey)
        obtain rfl := Option.some.inj h
        exact Or.inl ⟨old, hget, rfl, fun _ => BlobIndex.isTombstoned_tombstoned old⟩
      · exact Or.inl ⟨entry, h, rfl, id⟩
  | swapShardBinding shard newExtent oldExtent =>
    simp only [batch, DiskIndex.write_swapShardBindingWith] at h
    rcases OrdMap.get_writeAll_eq_some h with hput | hold
    · obtain ⟨b, hb, heq⟩ := List.mem_map.mp hput
      obtain ⟨hkey, hval⟩ := Prod.mk.inj heq
      obtain ⟨rfl, rfl⟩ := Prod.mk.inj (toLex_inj.mp hkey)
      obtain rfl := Option.some.inj hval
      obtain ⟨b', hb', rfl⟩ := List.mem_map.mp hb
      exact Or.inl ⟨b'.2, (DiskIndex.mem_carriedEntries hb').2, rfl,
        fun _ => BlobIndex.isTombstoned_tombstoned b'.2⟩
    · exact Or.inl ⟨entry, hold, rfl, id⟩
  | removeExtent extent' =>
    simp only [batch, DiskIndex.write_removeExtent, DiskIndex.get_removeBlobs] at h
    split_ifs at h
    exact Or.inl ⟨entry, h, rfl, id⟩
  | _ => exact Or.inl ⟨entry, h, rfl, id⟩

lemma untouched_perform {a : EngineAction} (h : extent ∉ a.touches) (engine : StorageEngine) :
    Untouched extent engine (engine.perform a) :=
  ⟨(write_batch_of_notMem h).1, (write_batch_of_notMem h).2, touch_of_notMem h⟩

/-- An operation leaves alone what none of its actions touches. -/
theorem untouched_performAll {actions : List EngineAction} (h : ∀ a ∈ actions, extent ∉ a.touches)
    (engine : StorageEngine) : Untouched extent engine (engine.performAll actions) := by
  induction actions generalizing engine with
  | nil => exact Untouched.refl extent engine
  | cons a actions ih =>
    exact (untouched_perform (h a List.mem_cons_self) engine).trans
      (ih (fun b hb => h b (List.mem_cons_of_mem a hb)) _)

end StorageEngine

end Epoch
