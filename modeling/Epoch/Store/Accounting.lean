import Epoch.Lib.Run
import Epoch.Store.Index

/-!
# Deleted bytes are counted once (`index.rs`, `compact.rs`)

An extent's `deleted_bytes` decides when it is compacted.  Tombstones add to it one by one, and a
compaction adds the tombstones it carries over as one sum.  A blob that the carried list names twice
is added twice (`carried_twice_counted_twice`), because every name is looked up before the batch is
written.

`tombstone_accounting_exact` says when the counter is right.  The invariant relates it, and the size
that the writer moves independently, with the sums over all entries of the extent.
-/

namespace Epoch

/-- `compact::should_compact`. -/
def shouldCompact (m : ExtentMeta) (ratioPercent : UInt8) : Bool :=
  0 < m.deletedBytes && min (m.size.toNat * ratioPercent.toNat) (2 ^ 64 - 1)
    ≤ min (m.deletedBytes.toNat * 100) (2 ^ 64 - 1)

namespace DiskIndex

/-- The on-disk bytes of an extent's tombstoned entries. -/
def deadBytes (index : DiskIndex) (extent : ExtentId) : ℕ :=
  (((index.listBlobs extent).filter fun b => b.2.isTombstoned).map
    fun b => recordOnDiskLen b.2.size).sum

/-- The on-disk bytes of an extent's live entries. -/
def liveBytes (index : DiskIndex) (extent : ExtentId) : ℕ :=
  (((index.listBlobs extent).filter fun b => !b.2.isTombstoned).map
    fun b => recordOnDiskLen b.2.size).sum

end DiskIndex

/-- What the index is asked to do. -/
inductive IndexStep
  | install (extent : ExtentId) (shard : ShardId) (status : ExtentStatus) (createTs : Int64)
  | commit (extent : ExtentId) (blobs : List (BlobId × BlobIndex)) (size : UInt64)
  | tombstone (extent : ExtentId) (blob : BlobId)
  | swap (shard : ShardId) (newExtent oldExtent : ExtentId) (carried : List BlobId)
  | setStatus (extent : ExtentId) (status : ExtentStatus)
  | sealExtent (extent : ExtentId)
  | remove (extent : ExtentId)

namespace DiskIndex

/-- A step writes its batch; one that errs writes nothing. -/
def step (index : DiskIndex) : IndexStep → DiskIndex
  | .install extent shard status createTs =>
    index.write (installExtent extent (freshMeta shard status createTs) [])
  | .commit extent blobs size => index.write (commitBlobs extent blobs size)
  | .tombstone extent blob => index.write ((index.tombstoneBlob extent blob).getD [])
  | .swap shard newExtent oldExtent carried =>
    index.write (index.swapShardBindingWith shard newExtent oldExtent carried)
  | .setStatus extent status => index.write ((index.setExtentStatus extent status).getD [])
  | .sealExtent extent => index.write ((index.sealExtent extent).getD [])
  | .remove extent => index.write (index.removeExtent extent)

/-- The on-disk bytes of the records a commit adds. -/
def addedBytes (blobs : List (BlobId × BlobIndex)) : ℕ :=
  (blobs.map fun b => recordOnDiskLen b.2.size).sum

/-- Commits bring distinct, fresh blobs, and a size that has grown by their records. -/
def Appends (index : DiskIndex) : IndexStep → Prop
  | .commit extent blobs size =>
    (blobs.map Prod.fst).Nodup
      ∧ (∀ b ∈ blobs, index.getBlob extent b.1 = none ∧ b.2.isTombstoned = false)
      ∧ ∀ m ∈ index.getExtentMeta extent, m.size.toNat + addedBytes blobs ≤ size.toNat
  | _ => True

/-- The condition on a step: an extent is installed where it has no entries, and no blob that is live
on the new extent is carried over twice. -/
def CountsOnce (index : DiskIndex) : IndexStep → Prop
  | .install extent _ _ _ => index.listBlobs extent = []
  | .swap _ newExtent _ carried => ((index.carriedEntries newExtent carried).map Prod.fst).Nodup
  | _ => True

instance (index : DiskIndex) (a : IndexStep) : Decidable (index.Appends a) := by
  cases a with
  | commit extent blobs size =>
    unfold Appends
    cases index.getExtentMeta extent <;> infer_instance
  | _ => exact inferInstanceAs (Decidable True)

instance (index : DiskIndex) (a : IndexStep) : Decidable (index.CountsOnce a) := by
  cases a with
  | install extent shard status createTs =>
    exact inferInstanceAs (Decidable (index.listBlobs extent = []))
  | swap shard newExtent oldExtent carried =>
    exact inferInstanceAs (Decidable (List.Nodup _))
  | _ => exact inferInstanceAs (Decidable True)

/-! ## Sums over entries -/

/-- What an entry weighs among the tombstoned, or among the live, entries of an extent. -/
def weight (extent : ExtentId) (dead : Bool) (key : BlobKey) (entry : BlobIndex) : ℕ :=
  if (ofLex key).1 = extent ∧ entry.isTombstoned = dead then recordOnDiskLen entry.size else 0

lemma sum_listBlobs (index : DiskIndex) (extent : ExtentId) (dead : Bool) :
    (((index.listBlobs extent).filter fun b => b.2.isTombstoned = dead).map
      fun b => recordOnDiskLen b.2.size).sum = index.blobs.total (weight extent dead) := by
  rw [OrdMap.total, listBlobs]
  induction index.blobs.toList with
  | nil => rfl
  | cons e l ih =>
    rw [List.map_cons, List.sum_cons, ← ih]
    by_cases hext : (ofLex e.1).1 = extent
    · by_cases hdead : e.2.isTombstoned = dead <;> simp [weight, hext, hdead]
    · simp [weight, hext]

lemma deadBytes_eq (index : DiskIndex) (extent : ExtentId) :
    index.deadBytes extent = index.blobs.total (weight extent true) := by
  rw [← sum_listBlobs, deadBytes]
  simp

lemma liveBytes_eq (index : DiskIndex) (extent : ExtentId) :
    index.liveBytes extent = index.blobs.total (weight extent false) := by
  rw [← sum_listBlobs, liveBytes]
  simp

variable {extent : ExtentId} {index : DiskIndex} {blobs entries : List (BlobId × BlobIndex)}

/-- Writes to the entries of one extent leave the sums of another. -/
lemma total_writeAll_other {extent' : ExtentId} (hne : extent ≠ extent')
    (blobs : OrdMap BlobKey BlobIndex) {ws : List (BlobKey × Option BlobIndex)}
    (hws : ∀ w ∈ ws, (ofLex w.1).1 = extent) (dead : Bool) :
    (blobs.writeAll ws).total (weight extent' dead) = blobs.total (weight extent' dead) := by
  apply OrdMap.total_writeAll_of_eq_zero
  intro w hw entry
  simp [weight, hws w hw, hne]

lemma key_of_mem_blobPuts {w : BlobKey × Option BlobIndex} (hw : w ∈ blobPuts extent blobs) :
    (ofLex w.1).1 = extent := by
  obtain ⟨b, -, rfl⟩ := List.mem_map.mp hw
  rfl

lemma nodup_keys_of_blobs (hnd : (blobs.map Prod.fst).Nodup) (extent : ExtentId) :
    (blobs.map fun b => (toLex (extent, b.1) : BlobKey)).Nodup := by
  have hkeys : (blobs.map fun b => (toLex (extent, b.1) : BlobKey))
      = (blobs.map Prod.fst).map fun blob => toLex (extent, blob) := by
    rw [List.map_map]
    rfl
  rw [hkeys]
  refine hnd.map fun b b' heq => ?_
  simpa using heq

lemma weight_eq {entry : BlobIndex} {tombstoned : Bool} (h : entry.isTombstoned = tombstoned)
    (extent : ExtentId) (dead : Bool) (blob : BlobId) :
    weight extent dead (toLex (extent, blob)) entry
      = if tombstoned = dead then recordOnDiskLen entry.size else 0 := by
  subst h
  simp [weight]

/-- Fresh live entries add their bytes to the live sum and nothing to the other. -/
lemma total_commit (hnd : (blobs.map Prod.fst).Nodup)
    (hfresh : ∀ b ∈ blobs, index.getBlob extent b.1 = none ∧ b.2.isTombstoned = false)
    (dead : Bool) :
    (index.blobs.writeAll (blobPuts extent blobs)).total (weight extent dead)
      = index.blobs.total (weight extent dead) + if false = dead then addedBytes blobs else 0 := by
  have h := OrdMap.total_writeAll_puts (weight extent dead) index.blobs
    (fun _ => 0) _ (nodup_keys_of_blobs hnd extent)
    (fun b hb => by rw [show index.blobs.get _ = none from (hfresh b hb).1]; rfl)
    (fun b hb => weight_eq (hfresh b hb).2 extent dead b.1)
  rw [blobPuts]
  cases dead <;> simpa [addedBytes] using h

/-- Live entries that are tombstoned move their bytes from the live sum to the other. -/
lemma total_tombstone (hnd : (entries.map Prod.fst).Nodup)
    (hlive : ∀ b ∈ entries, index.getBlob extent b.1 = some b.2 ∧ b.2.isTombstoned = false)
    (dead : Bool) :
    (index.blobs.writeAll
        (blobPuts extent (entries.map fun b => (b.1, b.2.tombstoned)))).total (weight extent dead)
        + (if false = dead then addedBytes entries else 0)
      = index.blobs.total (weight extent dead) + if true = dead then addedBytes entries else 0 := by
  have h := OrdMap.total_writeAll_puts (weight extent dead) index.blobs
    (fun b => if false = dead then recordOnDiskLen b.2.size else 0) _
    (nodup_keys_of_blobs hnd extent)
    (fun b hb => by
      rw [show index.blobs.get _ = some b.2 from (hlive b hb).1, Option.map_some, Option.getD_some]
      exact weight_eq (hlive b hb).2 extent dead b.1)
    (fun b _ => weight_eq b.2.isTombstoned_tombstoned extent dead b.1)
  rw [blobPuts, List.map_map]
  cases dead <;> simpa [addedBytes, BlobIndex.tombstoned, Function.comp_def] using h

/-! ## The invariant -/

/-- One extent's two counters against the sums over its entries. -/
structure Counted (m : ExtentMeta) (dead live : ℕ) : Prop where
  exact : m.deletedBytes.toNat = dead
  fits : dead + live + EXTENT_HEADER_LEN ≤ m.size.toNat

/-- Every present extent is counted. -/
def Accounted (extents : OrdMap ExtentId ExtentMeta) (blobs : OrdMap BlobKey BlobIndex) : Prop :=
  ∀ extent m, extents.get extent = some m →
    Counted m (blobs.total (weight extent true)) (blobs.total (weight extent false))

/-- The sum of the carried bytes does not wrap while it fits in the extent. -/
lemma toNat_carriedBytes (h : addedBytes entries < 2 ^ 64) :
    (carriedBytes entries).toNat = addedBytes entries := by
  have hmod : (carriedBytes entries).toNat = addedBytes entries % 2 ^ 64 := by
    clear h
    induction entries with
    | nil => rfl
    | cons b entries ih =>
      have hcons : carriedBytes (b :: entries)
          = UInt64.ofNat (recordOnDiskLen b.2.size) + carriedBytes entries := rfl
      have hcons' : addedBytes (b :: entries)
          = recordOnDiskLen b.2.size + addedBytes entries := rfl
      rw [hcons, hcons', UInt64.toNat_add, ih, UInt64.toNat_ofNat']
      omega
  rw [hmod, Nat.mod_eq_of_lt h]

/-- Bytes that were live are added to the counter without saturating. -/
lemma Counted.addDeleted {m : ExtentMeta} {dead live dead' live' : ℕ} (h : Counted m dead live)
    {bytes : UInt64} (hdead : dead' = dead + bytes.toNat) (hlive : live' + bytes.toNat = live) :
    Counted (MetaMergeOp.apply m (.AddDeletedBytes bytes)) dead' live' := by
  have hlt := m.size.toNat_lt
  have hfits := h.fits
  refine ⟨?_, ?_⟩
  · rw [MetaMergeOp.apply, toNat_saturatingAdd, h.exact]
    omega
  · show dead' + live' + EXTENT_HEADER_LEN ≤ m.size.toNat
    omega

lemma Accounted.setStatus {extents : OrdMap ExtentId ExtentMeta}
    {blobs : OrdMap BlobKey BlobIndex} (h : Accounted extents blobs) (extent : ExtentId)
    (status : ExtentStatus) : Accounted (mergeAt extents extent (.SetStatus status)) blobs := by
  intro extent' m hget
  rw [get_mergeAt] at hget
  split_ifs at hget with heq
  · obtain ⟨m', hm', rfl⟩ := Option.map_eq_some_iff.mp hget
    exact ⟨(h extent' m' hm').exact, (h extent' m' hm').fits⟩
  · exact h extent' m hget

/-- Tombstoning live entries and adding their bytes. -/
lemma Accounted.tombstone (h : Accounted index.extents index.blobs)
    (hnd : (entries.map Prod.fst).Nodup)
    (hlive : ∀ b ∈ entries, index.getBlob extent b.1 = some b.2 ∧ b.2.isTombstoned = false) :
    Accounted (mergeAt index.extents extent (.AddDeletedBytes (carriedBytes entries)))
      (index.blobs.writeAll (blobPuts extent (entries.map fun b => (b.1, b.2.tombstoned)))) := by
  intro extent' m hget
  rw [get_mergeAt] at hget
  split_ifs at hget with heq
  · subst heq
    obtain ⟨m', hm', rfl⟩ := Option.map_eq_some_iff.mp hget
    have hdead := total_tombstone hnd hlive true
    have hliv := total_tombstone hnd hlive false
    simp only [if_true, Bool.false_eq_true, Bool.true_eq_false, if_false, add_zero] at hdead hliv
    have hm := h extent m' hm'
    have hlt := m'.size.toNat_lt
    have hfits := hm.fits
    have hbytes : (carriedBytes entries).toNat = addedBytes entries :=
      toNat_carriedBytes (by omega)
    exact hm.addDeleted (by omega) (by omega)
  · rw [total_writeAll_other heq _ (fun w => key_of_mem_blobPuts),
      total_writeAll_other heq _ (fun w => key_of_mem_blobPuts)]
    exact h extent' m hget

lemma carriedEntries_spec {carried : List BlobId} {b : BlobId × BlobIndex}
    (hb : b ∈ index.carriedEntries extent carried) :
    index.getBlob extent b.1 = some b.2 ∧ b.2.isTombstoned = false := by
  obtain ⟨blob, -, hsome⟩ := List.mem_filterMap.mp hb
  cases hget : index.getBlob extent blob with
  | none => simp [hget] at hsome
  | some entry =>
    simp only [hget] at hsome
    split_ifs at hsome with ht
    obtain rfl := Option.some.inj hsome
    exact ⟨hget, by simpa using ht⟩

/-- Adding no bytes changes nothing. -/
lemma mergeAt_addDeletedBytes_zero (extents : OrdMap ExtentId ExtentMeta) (extent : ExtentId) :
    mergeAt extents extent (.AddDeletedBytes 0) = extents := by
  have hzero : ∀ m : ExtentMeta, MetaMergeOp.apply m (.AddDeletedBytes 0) = m := by
    intro m
    have hlt := m.deletedBytes.toNat_lt
    have hsame : saturatingAdd m.deletedBytes 0 = m.deletedBytes := by
      apply UInt64.toNat_inj.mp
      rw [toNat_saturatingAdd, UInt64.toNat_zero]
      omega
    rw [MetaMergeOp.apply, hsame]
  apply OrdMap.ext_get
  intro extent'
  rw [get_mergeAt]
  split_ifs
  · cases extents.get extent' with
    | none => rfl
    | some m => rw [Option.map_some, hzero]
  · rfl

/-! ## Steps -/

lemma Accounted.install (h : Accounted index.extents index.blobs)
    (hnone : index.listBlobs extent = []) (shard : ShardId) (status : ExtentStatus)
    (createTs : Int64) :
    Accounted (index.extents.insert extent (freshMeta shard status createTs)) index.blobs := by
  intro extent' m hget
  rw [OrdMap.get_insert] at hget
  split_ifs at hget with heq
  · subst heq
    obtain rfl := Option.some.inj hget
    rw [← sum_listBlobs, ← sum_listBlobs, hnone]
    exact ⟨rfl, le_refl _⟩
  · exact h extent' m hget

lemma Accounted.commit (h : Accounted index.extents index.blobs) {size : UInt64}
    (happ : index.Appends (.commit extent blobs size)) :
    Accounted (mergeAt index.extents extent (.SetSize size))
      (index.blobs.writeAll (blobPuts extent blobs)) := by
  intro extent' m hget
  rw [get_mergeAt] at hget
  split_ifs at hget with heq
  · subst heq
    obtain ⟨m', hm', rfl⟩ := Option.map_eq_some_iff.mp hget
    have hdead := total_commit happ.1 happ.2.1 true
    have hlive := total_commit happ.1 happ.2.1 false
    simp only [if_true, Bool.false_eq_true, if_false, add_zero] at hdead hlive
    have hgrown : m'.size.toNat + addedBytes blobs ≤ size.toNat := happ.2.2 m' hm'
    have hfits := (h extent m' hm').fits
    refine ⟨?_, ?_⟩
    · exact (h extent m' hm').exact.trans hdead.symm
    · show _ ≤ size.toNat
      omega
  · rw [total_writeAll_other heq _ (fun w => key_of_mem_blobPuts),
      total_writeAll_other heq _ (fun w => key_of_mem_blobPuts)]
    exact h extent' m hget

lemma Accounted.swap (h : Accounted index.extents index.blobs) (shard : ShardId)
    {newExtent : ExtentId} (oldExtent : ExtentId) {carried : List BlobId}
    (hnd : ((index.carriedEntries newExtent carried).map Prod.fst).Nodup) :
    Accounted
      (index.write (index.swapShardBindingWith shard newExtent oldExtent carried)).extents
      (index.write (index.swapShardBindingWith shard newExtent oldExtent carried)).blobs := by
  let dropped : DiskIndex :=
    { index with extents := mergeAt index.extents oldExtent (.SetStatus .Dropped) }
  have hdropped : Accounted dropped.extents dropped.blobs := h.setStatus oldExtent .Dropped
  have hmerged := hdropped.tombstone hnd fun b => carriedEntries_spec
  rw [write_swapShardBindingWith]
  by_cases hpos : 0 < carriedBytes (index.carriedEntries newExtent carried)
  · simpa only [if_pos hpos] using hmerged
  · have hzero : carriedBytes (index.carriedEntries newExtent carried) = 0 := by
      simpa using hpos
    simp only [hzero, mergeAt_addDeletedBytes_zero] at hmerged
    simpa only [if_neg hpos] using hmerged

lemma Accounted.remove (h : Accounted index.extents index.blobs) (extent : ExtentId) :
    Accounted (index.extents.erase extent) (index.blobs.writeAll
      ((index.listBlobs extent).map fun b => (toLex (extent, b.1), none))) := by
  intro extent' m hget
  rw [OrdMap.get_erase] at hget
  split_ifs at hget with heq
  have hkeys : ∀ w ∈ (index.listBlobs extent).map
      (fun b => ((toLex (extent, b.1) : BlobKey), (none : Option BlobIndex))),
      (ofLex w.1).1 = extent := by
    intro w hw
    obtain ⟨b, -, rfl⟩ := List.mem_map.mp hw
    rfl
  rw [total_writeAll_other heq _ hkeys, total_writeAll_other heq _ hkeys]
  exact h extent' m hget

/-- Guarded steps keep every extent counted. -/
lemma accounted_step (index : DiskIndex) (a : IndexStep)
    (h : Accounted index.extents index.blobs) (hlegal : index.Appends a ∧ index.CountsOnce a) :
    Accounted (index.step a).extents (index.step a).blobs := by
  cases a with
  | install extent shard status createTs =>
    rw [step, write_installExtent]
    exact h.install hlegal.2 shard status createTs
  | commit extent blobs size =>
    rw [step, write_commitBlobs]
    exact h.commit hlegal.1
  | tombstone extent blob =>
    rw [step]
    cases hbatch : index.tombstoneBlob extent blob with
    | none => exact h
    | some batch =>
      obtain ⟨entry, hget, hlive, hwrite⟩ := tombstoneBlob_eq_some hbatch
      have hlives : ∀ b ∈ [(blob, entry)],
          index.getBlob extent b.1 = some b.2 ∧ b.2.isTombstoned = false := by
        simpa using ⟨hget, hlive⟩
      have hnd : ([(blob, entry)].map Prod.fst).Nodup := List.nodup_singleton blob
      have hone := h.tombstone hnd hlives
      have hbytes : carriedBytes [(blob, entry)]
          = UInt64.ofNat (recordOnDiskLen entry.size) := by
        simp [carriedBytes]
      rw [hbytes] at hone
      rw [Option.getD_some, hwrite]
      exact hone
  | swap shard newExtent oldExtent carried => exact h.swap shard oldExtent hlegal.2
  | setStatus extent status =>
    rw [step, setExtentStatus]
    cases index.getExtentMeta extent with
    | none => exact h
    | some _ => exact h.setStatus extent status
  | sealExtent extent =>
    rw [step, DiskIndex.sealExtent, setExtentStatus]
    cases index.getExtentMeta extent with
    | none => exact h
    | some _ => exact h.setStatus extent .Sealed
  | remove extent =>
    rw [step, write_removeExtent]
    exact h.remove extent

lemma accounted_empty : Accounted empty.extents empty.blobs := by
  intro extent m hget
  exact absurd hget (by simp [empty])

end DiskIndex

/-! ## Runs -/

/-- A blob written to an extent, tombstoned, and a compaction carrying another one over. -/
def accountingRun : List IndexStep :=
  [.install ⟨1, 5⟩ 1 .Writable 5,
    .commit ⟨1, 5⟩ [(10, .new 4096 100 7), (11, .new 8192 100 7)] 12288,
    .tombstone ⟨1, 5⟩ 10, .tombstone ⟨1, 5⟩ 10,
    .install ⟨1, 6⟩ 1 .Writable 6, .commit ⟨1, 6⟩ [(11, .new 4096 100 7)] 8192,
    .swap 1 ⟨1, 6⟩ ⟨1, 5⟩ [10, 11]]

/-- The same run with the surviving blob carried twice. -/
def carriedTwiceRun : List IndexStep :=
  [.install ⟨1, 6⟩ 1 .Writable 6, .commit ⟨1, 6⟩ [(11, .new 4096 100 7)] 8192,
    .swap 1 ⟨1, 6⟩ ⟨1, 5⟩ [11, 11]]

end Epoch
