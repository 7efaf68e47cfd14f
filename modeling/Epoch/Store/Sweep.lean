import Epoch.Store.Accounting
import Epoch.Store.Live

/-!
# Compactions and maintenance sweeps carry over (`compact.rs`, `scrub.rs`, `maintenance.rs`)

A compaction of the serving extent, stopped anywhere, leaves the source serving or has the complete
destination serve (`carries_compact`).  The removal of dropped and of orphaned extents does not touch
the serving extent.  After it, the extents with metadata that is not dropped are the serving ones, so
that the compactions of a sweep have no other sources in a slot, and the whole sweep carries over
(`carries_sweep`).
-/

namespace Epoch

namespace DiskIndex

lemma nodup_listBlobs (index : DiskIndex) (extent : ExtentId) :
    ((index.listBlobs extent).map Prod.fst).Nodup := by
  rw [listBlobs, List.map_map]
  refine List.Nodup.map_on ?_ (index.blobs.nodup_toList.filter _)
  intro e he e' he' heq
  have hext : (ofLex e.1).1 = extent := by simpa using (List.mem_filter.mp he).2
  have hext' : (ofLex e'.1).1 = extent := by simpa using (List.mem_filter.mp he').2
  refine OrdMap.pairwise_eq_of_key_eq index.blobs.sorted (List.mem_filter.mp he).1
    (List.mem_filter.mp he').1 ?_
  exact congrArg toLex (Prod.ext (hext.trans hext'.symm) heq)

end DiskIndex

namespace StorageEngine

variable {engine engine' : StorageEngine} {extent extent' newExtent : ExtentId}
  {slot : UInt64} {blob : BlobId} {body : Bytes}

/-! ## The rebind -/

variable {source : ExtentId} {a : EngineAction}

lemma mem_carried {index : DiskIndex} :
    blob ∈ carried index source
      ↔ ∃ entry, index.getBlob source blob = some entry ∧ entry.isTombstoned = true := by
  simp only [carried, List.mem_map, List.mem_filter]
  constructor
  · rintro ⟨⟨b, entry⟩, ⟨hmem, ht⟩, rfl⟩
    exact ⟨entry, DiskIndex.mem_listBlobs.mp hmem, ht⟩
  · rintro ⟨entry, hget, ht⟩
    exact ⟨(blob, entry), ⟨DiskIndex.mem_listBlobs.mpr hget, ht⟩, rfl⟩

/-- The rebind leaves an entry of the destination alone that is not tombstoned on the source, or
that is not there. -/
lemma getBlob_swap (shard : ShardId)
    (h : blob ∉ carried engine.index source ∨ engine.index.getBlob newExtent blob = none) :
    (engine.perform (.swapShardBinding shard newExtent source)).index.getBlob newExtent blob
      = engine.index.getBlob newExtent blob := by
  show (engine.index.write (engine.index.swapShardBindingWith shard newExtent source _)).blobs.get _
    = _
  rw [DiskIndex.write_swapShardBindingWith]
  refine DiskIndex.get_blobPuts_of_notMem fun _ hmem => ?_
  rw [List.map_map] at hmem
  obtain ⟨b, hb, rfl⟩ := List.mem_map.mp hmem
  obtain ⟨hcarried, hget⟩ := DiskIndex.mem_carriedEntries hb
  rcases h with hnot | hnone
  · exact hnot hcarried
  · rw [show engine.index.getBlob newExtent b.1 = none from hnone] at hget
    exact absurd hget (by simp)

/-- It changes neither size nor shard nor status of the destination. -/
lemma getExtentMeta_swap (shard : ShardId) (hne : source ≠ newExtent) {m : ExtentMeta}
    (hm : engine.index.getExtentMeta newExtent = some m) :
    ∃ m', (engine.perform (.swapShardBinding shard newExtent source)).index.getExtentMeta newExtent
        = some m' ∧ m'.size = m.size ∧ m'.shardId = m.shardId ∧ m'.status = m.status := by
  show ∃ m', (engine.index.write
    (engine.index.swapShardBindingWith shard newExtent source _)).extents.get newExtent = some m' ∧ _
  have hdrop : (DiskIndex.mergeAt engine.index.extents source (.SetStatus .Dropped)).get newExtent
      = some m := by
    rw [DiskIndex.get_mergeAt, if_neg hne]
    exact hm
  rw [DiskIndex.write_swapShardBindingWith]
  dsimp only
  split_ifs
  · rw [DiskIndex.get_mergeAt, if_pos rfl, hdrop]
    exact ⟨_, rfl, rfl, rfl, rfl⟩
  · exact ⟨m, hdrop, rfl, rfl, rfl⟩

lemma Live.swap (h : Live engine newExtent blob body) (shard : ShardId) (hne : source ≠ newExtent)
    (hnot : blob ∉ carried engine.index source) :
    Live (engine.perform (.swapShardBinding shard newExtent source)) newExtent blob body := by
  obtain ⟨entry, r, hreads, hlive, hbody⟩ := h
  refine ⟨entry, r, ⟨?_, hreads.record, ?_, hreads.blob_eq⟩, hlive, hbody⟩
  · rw [getBlob_swap shard (Or.inl hnot)]
    exact hreads.entry_eq
  · obtain ⟨m, hm, hcov⟩ := hreads.covered
    obtain ⟨m', hm', hsize, -⟩ := getExtentMeta_swap shard hne hm
    exact ⟨m', hm', by rw [hsize]; exact hcov⟩

/-! ## A compaction -/

section

variable (crc32c : Bytes → UInt32)

lemma mem_liveBlobs {index : DiskIndex} {entry : BlobIndex} :
    (blob, entry) ∈ liveBlobs index extent
      ↔ index.getBlob extent blob = some entry ∧ entry.isTombstoned = false := by
  rw [liveBlobs, List.mem_filter, DiskIndex.mem_listBlobs]
  simp

variable {source : ExtentId} {f : Stream} {newTs : Int64} {a : EngineAction}

lemma Live.mem_bodies (h : Live engine extent blob body)
    (hfile : engine.files.get extent = some f) :
    (blob, body) ∈ bodies f (liveBlobs engine.index extent) := by
  obtain ⟨entry, r, hreads, hlive, rfl⟩ := h
  obtain ⟨f', hfile', hmem⟩ := hreads.record
  obtain rfl : f = f' := Option.some.inj (hfile.symm.trans hfile')
  refine List.mem_filterMap.mpr ⟨(blob, entry), mem_liveBlobs.mpr ⟨hreads.entry_eq, hlive⟩, ?_⟩
  rw [Stream.readRecord_eq_some.mpr hmem]
  rfl

lemma Dead.notMem_bodies (h : Dead engine extent blob) (f : Stream) :
    blob ∉ (bodies f (liveBlobs engine.index extent)).map Prod.fst := by
  intro hmem
  obtain ⟨b, hb, rfl⟩ := List.mem_map.mp hmem
  obtain ⟨p, hp, heq⟩ := List.mem_filterMap.mp hb
  obtain ⟨r, -, rfl⟩ := Option.map_eq_some_iff.mp heq
  obtain ⟨hget, hlive⟩ := mem_liveBlobs.mp hp
  rw [h p.2 hget] at hlive
  exact absurd hlive (by decide)

/-- What a compaction does between the pause of the source and the rebind. -/
def fillPlan (engine : StorageEngine) (source : ExtentId) (file : Stream) (newTs : Int64) :
    List EngineAction :=
  .createFile ⟨source.shardId, newTs⟩
    :: .putExtentMeta ⟨source.shardId, newTs⟩ (DiskIndex.freshMeta source.shardId .Writable newTs)
    :: (copyPlan crc32c engine.index file ⟨source.shardId, newTs⟩ []
      (liveBlobs engine.index source)).1

lemma touches_fillPlan {file : Stream} (ha : a ∈ fillPlan crc32c engine source file newTs) :
    a.touches = [⟨source.shardId, newTs⟩] ∧ ∀ slot, KeepsBinding slot a := by
  rcases List.mem_cons.mp ha with rfl | ha
  · exact ⟨rfl, fun _ _ => rfl⟩
  · rcases List.mem_cons.mp ha with rfl | ha
    · exact ⟨rfl, fun _ _ => rfl⟩
    · rcases copyPlan_copies _ _ _ _ _ _ a ha with ⟨r, rfl⟩ | ⟨blobs, size, rfl⟩
      · exact ⟨rfl, fun _ _ => rfl⟩
      · exact ⟨rfl, fun _ _ => rfl⟩

/-- The plan's shape: the source is paused, the destination filled, the shard rebound. -/
lemma rewritePlan_eq (source : ExtentId) (file : Stream) (newTs : Int64) :
    rewritePlan crc32c engine source file newTs
      = .setExtentStatus source .Full ::
        if (engine.files.get ⟨source.shardId, newTs⟩).isSome then []
        else fillPlan crc32c engine source file newTs
          ++ if (copyPlan crc32c engine.index file ⟨source.shardId, newTs⟩ []
              (liveBlobs engine.index source)).2 then
            rebindPlan source ⟨source.shardId, newTs⟩ else [] := rfl

/-- A filled destination has the live blobs of the source and nothing else. -/
lemma copied_fillPlan {source : ExtentId} {file : Stream} {newTs : Int64}
    (hfree : ∀ blob, engine.index.getBlob ⟨source.shardId, newTs⟩ blob = none)
    (hfree' : ∀ blob, engine'.index.getBlob ⟨source.shardId, newTs⟩ blob = none)
    (hok : (copyPlan crc32c engine.index file ⟨source.shardId, newTs⟩ []
      (liveBlobs engine.index source)).2 = true) :
    ∃ dest, Copied (engine'.performAll (fillPlan crc32c engine source file newTs))
      ⟨source.shardId, newTs⟩ dest (bodies file (liveBlobs engine.index source)) := by
  have hstart : Copied ((engine'.perform (.createFile ⟨source.shardId, newTs⟩)).perform
      (.putExtentMeta ⟨source.shardId, newTs⟩
        (DiskIndex.freshMeta source.shardId .Writable newTs)))
      ⟨source.shardId, newTs⟩ [] [] := by
    refine ⟨?_, ?_, ?_, ?_⟩
    · show (engine'.files.insert _ []).get _ = _
      rw [OrdMap.get_insert, if_pos rfl]
    · refine ⟨DiskIndex.freshMeta source.shardId .Writable newTs, ?_, rfl, rfl⟩
      show (engine'.index.extents.insert _ _).get _ = _
      rw [OrdMap.get_insert, if_pos rfl]
    · simp
    · intro blob _
      exact hfree' blob
  have hnd : ((liveBlobs engine.index source).map Prod.fst).Nodup :=
    (engine.index.nodup_listBlobs source).sublist (List.filter_sublist.map _)
  have hcopied := hstart.copyPlan crc32c hfree hnd (by simp) hok
  simpa [fillPlan] using hcopied

/-- The rebind to a filled destination, up to any point. -/
lemma Serves.carries_rebind (h : Serves engine slot extent) (hu : Untouched extent engine engine')
    (hcopied : ∃ dest, Copied engine' newExtent dest (bodies f (liveBlobs engine.index extent)))
    (hfile : engine.files.get extent = some f) (hshard : newExtent.shardId = extent.shardId)
    (hne : extent ≠ newExtent) (stop : ℕ) :
    Carries slot engine extent
      (engine'.performAll ((rebindPlan extent newExtent).take (stop + 1))) newExtent := by
  obtain ⟨dest, hcopied⟩ := hcopied
  have hswap : Carries slot engine extent
      (engine'.perform (.swapShardBinding extent.shardId newExtent extent)) newExtent := by
    refine ⟨⟨?_, ?_, ?_⟩, ?_, ?_⟩
    · rw [binding_perform, bindingAfter, if_pos h.slot_eq]
    · rw [hshard]
      exact h.slot_eq
    · obtain ⟨m, hm, hown, hst⟩ := hcopied.own
      obtain ⟨m', hm', -, hown', hst'⟩ := getExtentMeta_swap extent.shardId hne hm
      refine ⟨m', hm', hown'.trans hown, ?_⟩
      rw [hst', hst]
      decide
    · intro blob body hlive
      refine (hcopied.live _ (hlive.mem_bodies hfile)).swap extent.shardId hne ?_
      intro hmem
      obtain ⟨entry, hget, ht⟩ := mem_carried.mp hmem
      obtain ⟨entry', r, hreads, hlive', -⟩ := hlive
      rw [hu.blob_eq, hreads.entry_eq] at hget
      obtain rfl := Option.some.inj hget
      rw [ht] at hlive'
      exact absurd hlive' (by decide)
    · intro blob hdead entry hget
      have hnone := hcopied.rest blob (hdead.notMem_bodies f)
      rw [getBlob_swap extent.shardId (Or.inr hnone), hnone] at hget
      exact absurd hget (by simp)
  have hrest : ∀ a ∈ [EngineAction.moveToTrash extent, .removeExtent extent,
      .spawnWriter newExtent].take stop, newExtent ∉ a.touches ∧ KeepsBinding slot a := by
    intro a ha
    have hmem := List.mem_of_mem_take ha
    simp only [List.mem_cons, List.not_mem_nil, or_false] at hmem
    rcases hmem with rfl | rfl | rfl
    · exact ⟨by simpa [EngineAction.touches] using hne.symm, fun _ => rfl⟩
    · exact ⟨by simpa [EngineAction.touches] using hne.symm, fun _ => rfl⟩
    · exact ⟨by simp [EngineAction.touches], fun _ => rfl⟩
  exact hswap.trans (hswap.serves.carries_performAll (fun a ha => (hrest a ha).1)
    fun a ha => (hrest a ha).2)

/-- The actions end with the rebind, or somewhere after it. -/
def Rebound (actions : List EngineAction) (source newExtent : ExtentId) : Prop :=
  ∃ earlier n, actions = earlier ++ (rebindPlan source newExtent).take (n + 1)

/-- A compaction of the serving extent, up to any point. -/
lemma Serves.carries_rewrite (h : Serves engine slot extent) {f : Stream}
    (hfile : engine.files.get extent = some f) (newTs : Int64)
    (hfree : engine.files.get ⟨extent.shardId, newTs⟩ = none →
      ∀ blob, engine.index.getBlob ⟨extent.shardId, newTs⟩ blob = none) (stop : ℕ) :
    Carries slot engine extent
        (engine.performAll ((rewritePlan crc32c engine extent f newTs).take stop)) extent
      ∨ Rebound ((rewritePlan crc32c engine extent f newTs).take stop) extent
          ⟨extent.shardId, newTs⟩
        ∧ Carries slot engine extent
          (engine.performAll ((rewritePlan crc32c engine extent f newTs).take stop))
          ⟨extent.shardId, newTs⟩ := by
  rw [rewritePlan_eq]
  cases stop with
  | zero => exact Or.inl h.carries
  | succ stop =>
    have hpaused := h.carries_setStatus (show ExtentStatus.Full ≠ .Dropped by decide)
    rw [List.take_succ_cons, performAll_cons]
    by_cases hnew : (engine.files.get ⟨extent.shardId, newTs⟩).isSome
    · rw [if_pos hnew, List.take_nil]
      exact Or.inl hpaused
    rw [if_neg hnew]
    have hnone := Option.not_isSome_iff_eq_none.mp hnew
    have hne : extent ≠ ⟨extent.shardId, newTs⟩ := by
      intro heq
      rw [← heq, hfile] at hnone
      exact absurd hnone (by simp)
    generalize hpaused' : engine.perform (.setExtentStatus extent .Full) = paused at hpaused ⊢
    have htouch : ∀ a ∈ fillPlan crc32c engine extent f newTs,
        extent ∉ a.touches ∧ KeepsBinding slot a := by
      intro a ha
      obtain ⟨htouches, hbind⟩ := touches_fillPlan crc32c ha
      exact ⟨by simpa [htouches] using hne, hbind slot⟩
    rw [List.take_append, performAll_append]
    have hfill : Carries slot paused extent
        (paused.performAll ((fillPlan crc32c engine extent f newTs).take stop)) extent :=
      hpaused.serves.carries_performAll (fun a ha => (htouch a (List.mem_of_mem_take ha)).1)
        fun a ha => (htouch a (List.mem_of_mem_take ha)).2
    -- the rebind is not reached, or the destination is complete
    rcases Nat.eq_zero_or_pos (stop - (fillPlan crc32c engine extent f newTs).length) with
      hstop | hstop
    · rw [hstop, List.take_zero, performAll_nil]
      exact Or.inl (hpaused.trans hfill)
    · split_ifs with hok
      swap
      · rw [List.take_nil, performAll_nil]
        exact Or.inl (hpaused.trans hfill)
      obtain ⟨n, hn⟩ : ∃ n, stop - (fillPlan crc32c engine extent f newTs).length = n + 1 :=
        ⟨_, (Nat.succ_pred_eq_of_pos hstop).symm⟩
      rw [List.take_of_length_le (by omega), hn]
      have hblobs : paused.index.blobs = engine.index.blobs := by
        rw [← hpaused', blobs_setStatus]
      have hfree' : ∀ blob, paused.index.getBlob ⟨extent.shardId, newTs⟩ blob = none := by
        intro blob
        rw [DiskIndex.getBlob, hblobs]
        exact hfree hnone blob
      have hcopied := copied_fillPlan crc32c (hfree hnone) hfree' hok
      have hsame : liveBlobs engine.index extent = liveBlobs paused.index extent := by
        rw [liveBlobs, liveBlobs, DiskIndex.listBlobs, DiskIndex.listBlobs, hblobs]
      have hfile' : paused.files.get extent = some f := by
        rw [← hpaused']
        exact hfile
      rw [hsame] at hcopied
      refine Or.inr ⟨⟨_ :: fillPlan crc32c engine extent f newTs, n, rfl⟩, hpaused.trans ?_⟩
      exact hpaused.serves.carries_rebind
        (untouched_performAll (fun a ha => (htouch a ha).1) paused) hcopied hfile' rfl hne n

/-- What a compaction does. -/
lemma mem_compactPlan (ha : a ∈ compactPlan crc32c engine source newTs) :
    a = .stopWriter source ∨ a = .setExtentStatus source .Full
      ∨ (∃ f, a ∈ fillPlan crc32c engine source f newTs
        ∧ engine.files.get source = some f ∧ engine.files.get ⟨source.shardId, newTs⟩ = none)
      ∨ a ∈ rebindPlan source ⟨source.shardId, newTs⟩ := by
  rcases compactPlan_cases crc32c engine source newTs with ⟨hplan, -⟩ | ⟨f, hfile, -, hplan⟩
  · rw [hplan, List.mem_singleton] at ha
    exact Or.inl ha
  · rw [hplan, rewritePlan_eq] at ha
    rcases List.mem_cons.mp ha with rfl | ha
    · exact Or.inl rfl
    rcases List.mem_cons.mp ha with rfl | ha
    · exact Or.inr (Or.inl rfl)
    by_cases hnew : (engine.files.get ⟨source.shardId, newTs⟩).isSome
    · rw [if_pos hnew] at ha
      exact absurd ha List.not_mem_nil
    rw [if_neg hnew] at ha
    rcases List.mem_append.mp ha with ha | ha
    · exact Or.inr (Or.inr (Or.inl ⟨f, ha, hfile, Option.not_isSome_iff_eq_none.mp hnew⟩))
    · split_ifs at ha
      · exact Or.inr (Or.inr (Or.inr ha))
      · exact absurd ha List.not_mem_nil

/-- A compaction stays in the slot of its source. -/
lemma compactPlan_other (newTs : Int64) (hslot : shardPrefix source.shardId ≠ slot)
    (ha : a ∈ compactPlan crc32c engine source newTs) :
    (∀ e ∈ a.touches, shardPrefix e.shardId ≠ slot) ∧ KeepsBinding slot a := by
  rcases mem_compactPlan crc32c ha with rfl | rfl | ⟨f, ha, -⟩ | ha
  · exact ⟨by simp [EngineAction.touches], fun _ => rfl⟩
  · exact ⟨by simpa [EngineAction.touches] using hslot, fun _ => rfl⟩
  · obtain ⟨htouches, hbind⟩ := touches_fillPlan crc32c ha
    exact ⟨by simpa [htouches] using hslot, hbind slot⟩
  · simp only [rebindPlan, List.mem_cons, List.not_mem_nil, or_false] at ha
    rcases ha with rfl | rfl | rfl | rfl
    · exact ⟨by simpa [EngineAction.touches] using hslot, fun _ => if_neg hslot⟩
    · exact ⟨by simpa [EngineAction.touches] using hslot, fun _ => rfl⟩
    · exact ⟨by simpa [EngineAction.touches] using hslot, fun _ => rfl⟩
    · exact ⟨by simp [EngineAction.touches], fun _ => rfl⟩

/-- A compaction of another slot, up to any point. -/
lemma Serves.carries_compact_other (h : Serves engine slot extent) (newTs : Int64)
    (hslot : shardPrefix source.shardId ≠ slot) (stop : ℕ) :
    Carries slot engine extent
      (engine.performAll ((compactPlan crc32c engine source newTs).take stop)) extent := by
  refine h.carries_performAll ?_ ?_
  · intro a ha hmem
    exact (compactPlan_other crc32c newTs hslot (List.mem_of_mem_take ha)).1 extent hmem h.slot_eq
  · intro a ha
    exact (compactPlan_other crc32c newTs hslot (List.mem_of_mem_take ha)).2

/-- A compaction of the serving extent, up to any point: the source still serves, or the destination
does and is complete. -/
theorem Serves.carries_compact (h : Serves engine slot extent) (newTs : Int64)
    (hfree : engine.files.get ⟨extent.shardId, newTs⟩ = none →
      ∀ blob, engine.index.getBlob ⟨extent.shardId, newTs⟩ blob = none) (stop : ℕ) :
    Carries slot engine extent
        (engine.performAll ((compactPlan crc32c engine extent newTs).take stop)) extent
      ∨ Rebound ((compactPlan crc32c engine extent newTs).take stop) extent ⟨extent.shardId, newTs⟩
        ∧ Carries slot engine extent
          (engine.performAll ((compactPlan crc32c engine extent newTs).take stop))
          ⟨extent.shardId, newTs⟩ := by
  have hstopped : Carries slot engine extent (engine.performAll [.stopWriter extent]) extent :=
    h.carries_performAll (by simp [EngineAction.touches]) (by simp [KeepsBinding, bindingAfter])
  cases stop with
  | zero => exact Or.inl h.carries
  | succ stop =>
    rcases compactPlan_cases crc32c engine extent newTs with ⟨hplan, -⟩ | ⟨f, hfile, -, hplan⟩
    · rw [hplan, List.take_succ_cons, List.take_nil]
      exact Or.inl hstopped
    · rw [hplan, List.take_succ_cons, performAll_cons]
      rcases hstopped.serves.carries_rewrite crc32c hfile newTs hfree stop with
        hrest | ⟨⟨earlier, n, heq⟩, hrest⟩
      · exact Or.inl (hstopped.trans hrest)
      · refine Or.inr ⟨⟨.stopWriter extent :: earlier, n, ?_⟩, hstopped.trans hrest⟩
        rw [List.cons_append, ← heq]
        rfl

end

/-! ## Removals -/

/-- Every metadata names its extent's shard, and entries belong to extents with a file and
metadata. -/
structure Tidy (engine : StorageEngine) : Prop where
  owner : ∀ extent m, engine.index.getExtentMeta extent = some m → m.shardId = extent.shardId
  filed : ∀ extent blob, (engine.index.getBlob extent blob).isSome →
    (engine.files.get extent).isSome
  known : ∀ extent blob, (engine.index.getBlob extent blob).isSome →
    (engine.status extent).isSome

/-- What an action needs to keep an engine tidy. -/
def Tidies (engine : StorageEngine) : EngineAction → Prop
  | .putExtentMeta extent m => m.shardId = extent.shardId
  | .installExtent extent m _ => m.shardId = extent.shardId ∧ (engine.files.get extent).isSome
  | .commitBlobs extent _ _ =>
    (engine.files.get extent).isSome ∧ (engine.status extent).isSome
  | .moveToTrash _ => False
  | _ => True

lemma Tidy.stray (h : Tidy engine) (hnone : engine.files.get extent = none) (blob : BlobId) :
    engine.index.getBlob extent blob = none := by
  cases hget : engine.index.getBlob extent blob with
  | none => rfl
  | some entry =>
    have hfile := h.filed extent blob (by rw [hget]; rfl)
    rw [hnone] at hfile
    exact absurd hfile (by simp)

/-- An entry of an extent after an action: there was one, or the action is a batch of puts. -/
lemma isSome_getBlob_perform (h : ((engine.perform a).index.getBlob extent blob).isSome) :
    (engine.index.getBlob extent blob).isSome ∧ a ≠ .removeExtent extent
      ∨ (∃ blobs size, a = .commitBlobs extent blobs size)
      ∨ ∃ m blobs, a = .installExtent extent m blobs := by
  obtain ⟨entry, hget⟩ := Option.isSome_iff_exists.mp h
  rcases getBlob_perform hget with ⟨old, hold, -⟩ | ⟨blobs, size, rfl, -⟩ | ⟨m, blobs, rfl, -⟩
  · refine Or.inl ⟨by rw [hold]; rfl, ?_⟩
    rintro rfl
    change (engine.index.write (engine.index.removeExtent extent)).blobs.get _ = _ at hget
    rw [DiskIndex.write_removeExtent, DiskIndex.get_removeBlobs, if_pos rfl] at hget
    exact absurd hget (by simp)
  · exact Or.inr (Or.inl ⟨blobs, size, rfl⟩)
  · exact Or.inr (Or.inr ⟨m, blobs, rfl⟩)

lemma Tidy.perform (h : Tidy engine) (ha : engine.Tidies a) :
    Tidy (engine.perform a) := by
  refine ⟨?_, ?_, ?_⟩
  · intro extent m' hget
    rcases getExtentMeta_perform hget with ⟨m, hm, hshard⟩ | rfl | ⟨blobs, rfl⟩
    · exact hshard.trans (h.owner extent m hm)
    · exact ha
    · exact ha.1
  · intro extent blob hsome
    rcases isSome_getBlob_perform hsome with ⟨hold, -⟩ | ⟨blobs, size, rfl⟩ | ⟨m, blobs, rfl⟩
    · refine isSome_touch (h.filed extent blob hold) ?_
      rintro rfl
      exact ha
    · exact ha.1
    · exact ha.2
  · intro extent blob hsome
    rw [status_perform]
    rcases isSome_getBlob_perform hsome with ⟨hold, hne⟩ | ⟨blobs, size, rfl⟩ | ⟨m, blobs, rfl⟩
    · exact isSome_statusAfter (h.known extent blob hold) hne
    · exact ha.2
    · simp [statusAfter]

lemma Tidy.appendPlan (h : Tidy engine) (crc32c : Bytes → UInt32) {f : Stream}
    (hfile : engine.files.get extent = some f) (hmeta : (engine.index.getExtentMeta extent).isSome)
    (r : Record) : Tidy (engine.performAll (appendPlan crc32c extent f r)) := by
  have happended := h.perform (a := .appendRecord extent r) trivial
  refine happended.perform (a := .commitBlobs extent [(r.blobId, entryOf crc32c f.writeOffset r)]
    (UInt64.ofNat (Stream.writeOffset (f ++ [r])))) ⟨?_, ?_⟩
  · exact isSome_touch (by rw [hfile]; rfl) (by simp)
  · rw [status_perform]
    show (engine.status extent).isSome
    rw [status, Option.isSome_map]
    exact hmeta

lemma Tidy.install (h : Tidy engine) (shard : ShardId) (createTs : Int64) (st : ExtentStatus) :
    Tidy (engine.performAll (installPlan shard createTs st)) := by
  have hfiled := h.perform (a := .createFile ⟨shard, createTs⟩) trivial
  have hinstalled := hfiled.perform
    (a := .installExtent ⟨shard, createTs⟩ (DiskIndex.freshMeta shard st createTs) []) ⟨rfl, by
      show ((engine.files.insert _ _).get _).isSome
      rw [OrdMap.get_insert, if_pos rfl]
      rfl⟩
  exact hinstalled.perform (a := .spawnWriter ⟨shard, createTs⟩) trivial

/-- A file without entries can go. -/
lemma Tidy.trash (h : Tidy engine) (hfresh : ∀ blob, engine.index.getBlob extent blob = none) :
    Tidy (engine.perform (.moveToTrash extent)) := by
  refine ⟨h.owner, ?_, h.known⟩
  intro extent' blob hsome
  show ((engine.files.erase extent).get extent').isSome
  rw [OrdMap.get_erase, if_neg]
  · exact h.filed extent' blob hsome
  · rintro rfl
    rw [show (engine.perform (.moveToTrash extent)).index.getBlob extent blob = none
      from hfresh blob] at hsome
    exact absurd hsome (by simp)

/-- An extent without metadata has no entries. -/
lemma Tidy.unknown (h : Tidy engine) (hmeta : engine.index.getExtentMeta extent = none)
    (blob : BlobId) : engine.index.getBlob extent blob = none := by
  by_contra hne
  have hknown := h.known _ blob (Option.isSome_iff_ne_none.mpr hne)
  rw [status, hmeta] at hknown
  exact absurd hknown (by simp)

lemma createPlan_of_installed {shard : ShardId} {createTs : Int64} (st : ExtentStatus)
    (hfile : (engine.files.get ⟨shard, createTs⟩).isSome)
    (hmeta : (engine.index.getExtentMeta ⟨shard, createTs⟩).isSome) :
    engine.createPlan shard createTs st = [] := by
  obtain ⟨f, hf⟩ := Option.isSome_iff_exists.mp hfile
  obtain ⟨m, hm⟩ := Option.isSome_iff_exists.mp hmeta
  unfold createPlan
  rw [hf, hm]

/-- A creation that finds its extent not installed, which then has no entries. -/
lemma Tidy.create_cases (h : Tidy engine) (shard : ShardId) (createTs : Int64)
    (st : ExtentStatus) :
    ((engine.files.get ⟨shard, createTs⟩).isSome
        ∧ (engine.index.getExtentMeta ⟨shard, createTs⟩).isSome
        ∧ engine.createPlan shard createTs st = [])
      ∨ (∀ blob, engine.index.getBlob ⟨shard, createTs⟩ blob = none)
        ∧ (engine.createPlan shard createTs st = installPlan shard createTs st
          ∨ engine.createPlan shard createTs st
            = .moveToTrash ⟨shard, createTs⟩ :: installPlan shard createTs st) := by
  unfold createPlan
  cases hfile : engine.files.get ⟨shard, createTs⟩ with
  | none => exact Or.inr ⟨h.stray hfile, Or.inl rfl⟩
  | some f =>
    cases hmeta : engine.index.getExtentMeta ⟨shard, createTs⟩ with
    | some m => exact Or.inl ⟨rfl, rfl, rfl⟩
    | none => exact Or.inr ⟨h.unknown hmeta, Or.inr rfl⟩

lemma Tidy.create (h : Tidy engine) (shard : ShardId) (createTs : Int64) (st : ExtentStatus) :
    Tidy (engine.performAll (engine.createPlan shard createTs st)) := by
  rcases h.create_cases shard createTs st with ⟨-, -, hplan⟩ | ⟨hfresh, hplan | hplan⟩
  · rw [hplan]
    exact h
  · rw [hplan]
    exact h.install shard createTs st
  · rw [hplan]
    exact (h.trash hfresh).install shard createTs st

lemma getExtentMeta_reclaim (engine : StorageEngine) (extent extent' : ExtentId) :
    (engine.performAll (reclaimPlan extent)).index.getExtentMeta extent'
      = if extent = extent' then none else engine.index.getExtentMeta extent' := by
  show (engine.index.write (engine.index.removeExtent extent)).extents.get extent' = _
  rw [DiskIndex.write_removeExtent, OrdMap.get_erase]
  split_ifs <;> rfl

lemma Tidy.reclaim (h : Tidy engine) (extent : ExtentId) :
    Tidy (engine.performAll (reclaimPlan extent)) := by
  have hblob : ∀ extent' blob,
      ((engine.performAll (reclaimPlan extent)).index.getBlob extent' blob).isSome →
        extent ≠ extent' ∧ (engine.index.getBlob extent' blob).isSome := by
    intro extent' blob hsome
    change ((engine.index.write (engine.index.removeExtent extent)).blobs.get _).isSome at hsome
    rw [DiskIndex.write_removeExtent, DiskIndex.get_removeBlobs] at hsome
    split_ifs at hsome with heq
    · exact absurd hsome (by simp)
    · exact ⟨heq, hsome⟩
  refine ⟨?_, ?_, ?_⟩
  · intro extent' m hget
    rw [getExtentMeta_reclaim] at hget
    split_ifs at hget
    exact h.owner extent' m hget
  · intro extent' blob hsome
    obtain ⟨hne, hold⟩ := hblob extent' blob hsome
    show ((engine.files.erase extent).get extent').isSome
    rw [OrdMap.get_erase, if_neg hne]
    exact h.filed extent' blob hold
  · intro extent' blob hsome
    obtain ⟨hne, hold⟩ := hblob extent' blob hsome
    rw [status, getExtentMeta_reclaim, if_neg hne]
    exact h.known extent' blob hold

lemma Tidy.reclaimAll (h : Tidy engine) (extents : List ExtentId) :
    Tidy (engine.performAll (extents.flatMap reclaimPlan)) := by
  induction extents generalizing engine with
  | nil => exact h
  | cons extent extents ih =>
    rw [List.flatMap_cons, performAll_append]
    exact ih (h.reclaim extent)

lemma getExtentMeta_reclaimAll (engine : StorageEngine) (extents : List ExtentId)
    (extent : ExtentId) :
    (engine.performAll (extents.flatMap reclaimPlan)).index.getExtentMeta extent
      = if extent ∈ extents then none else engine.index.getExtentMeta extent := by
  induction extents generalizing engine with
  | nil => rfl
  | cons extent' extents ih =>
    rw [List.flatMap_cons, performAll_append, ih, getExtentMeta_reclaim]
    by_cases hmem : extent ∈ extents
    · rw [if_pos hmem, if_pos (List.mem_cons_of_mem _ hmem)]
    · by_cases heq : extent' = extent
      · rw [if_neg hmem, if_pos heq, if_pos (heq ▸ List.mem_cons_self)]
      · have hne : extent ∉ extent' :: extents := by
          rw [List.mem_cons, not_or]
          exact ⟨Ne.symm heq, hmem⟩
        rw [if_neg hmem, if_neg heq, if_neg hne]

/-- Removals touch what they remove, and no binding. -/
lemma mem_reclaimAll {extents : List ExtentId} (ha : a ∈ extents.flatMap reclaimPlan) :
    (∃ extent ∈ extents, a.touches = [extent]) ∧ ∀ slot, KeepsBinding slot a := by
  obtain ⟨extent, hmem, ha⟩ := List.mem_flatMap.mp ha
  simp only [reclaimPlan, List.mem_cons, List.not_mem_nil, or_false] at ha
  rcases ha with rfl | rfl
  · exact ⟨⟨extent, hmem, rfl⟩, fun _ _ => rfl⟩
  · exact ⟨⟨extent, hmem, rfl⟩, fun _ _ => rfl⟩

/-- The removal of other extents, up to any point. -/
lemma Serves.carries_reclaimAll (h : Serves engine slot extent) {extents : List ExtentId}
    (hnot : extent ∉ extents) (stop : ℕ) :
    Carries slot engine extent
      (engine.performAll ((extents.flatMap reclaimPlan).take stop)) extent := by
  refine h.carries_performAll ?_ ?_
  · intro a ha hmem
    obtain ⟨⟨extent', hmem', htouches⟩, -⟩ := mem_reclaimAll (List.mem_of_mem_take ha)
    rw [htouches, List.mem_singleton] at hmem
    exact hnot (hmem ▸ hmem')
  · intro a ha
    exact (mem_reclaimAll (List.mem_of_mem_take ha)).2 slot

/-- The extents that `reclaim_dropped` removes. -/
def dropped (engine : StorageEngine) : List ExtentId :=
  (engine.index.listExtents.filter fun e => e.2.status = .Dropped).map Prod.fst

/-- The extents that `reclaim_orphans` removes. -/
def orphans (engine : StorageEngine) : List ExtentId :=
  (engine.index.listExtents.filter fun e =>
    e.2.status ≠ .Dropped ∧ engine.index.getShardBinding e.2.shardId ≠ some e.1).map Prod.fst

lemma reclaimDroppedPlan_eq : engine.reclaimDroppedPlan = engine.dropped.flatMap reclaimPlan := by
  rw [dropped, List.flatMap_map]
  rfl

lemma reclaimOrphansPlan_eq : engine.reclaimOrphansPlan = engine.orphans.flatMap reclaimPlan := by
  rw [orphans, List.flatMap_map]
  rfl

lemma mem_dropped : extent ∈ engine.dropped ↔ engine.status extent = some .Dropped := by
  simp only [dropped, DiskIndex.listExtents, List.mem_map, List.mem_filter, decide_eq_true_eq, status,
    Option.map_eq_some_iff]
  constructor
  · rintro ⟨⟨e, m⟩, ⟨hmem, hst⟩, rfl⟩
    exact ⟨m, (engine.index.extents.mem_toList_iff _ _).mp hmem, hst⟩
  · rintro ⟨m, hm, hst⟩
    exact ⟨(extent, m), ⟨(engine.index.extents.mem_toList_iff _ _).mpr hm, hst⟩, rfl⟩

lemma mem_orphans : extent ∈ engine.orphans ↔ ∃ m, engine.index.getExtentMeta extent = some m
    ∧ m.status ≠ .Dropped ∧ engine.index.getShardBinding m.shardId ≠ some extent := by
  simp only [orphans, DiskIndex.listExtents, List.mem_map, List.mem_filter, decide_eq_true_eq]
  constructor
  · rintro ⟨⟨e, m⟩, ⟨hmem, hst⟩, rfl⟩
    exact ⟨m, (engine.index.extents.mem_toList_iff _ _).mp hmem, hst⟩
  · rintro ⟨m, hm, hst⟩
    exact ⟨(extent, m), ⟨(engine.index.extents.mem_toList_iff _ _).mpr hm, hst⟩, rfl⟩

lemma Serves.notMem_dropped (h : Serves engine slot extent) : extent ∉ engine.dropped :=
  fun hmem => h.status_ne (mem_dropped.mp hmem)

lemma Serves.notMem_orphans (h : Serves engine slot extent) : extent ∉ engine.orphans := by
  intro hmem
  obtain ⟨m, hm, -, hunbound⟩ := mem_orphans.mp hmem
  obtain ⟨m', hm', hown, -⟩ := h.own
  obtain rfl : m = m' := Option.some.inj (hm.symm.trans hm')
  rw [hown] at hunbound
  exact hunbound h.isBound

/-- `reclaim_dropped`, up to any point. -/
theorem Serves.carries_reclaimDropped (h : Serves engine slot extent) (stop : ℕ) :
    Carries slot engine extent (engine.performAll (engine.reclaimDroppedPlan.take stop)) extent := by
  rw [reclaimDroppedPlan_eq]
  exact h.carries_reclaimAll h.notMem_dropped stop

/-- `reclaim_orphans`, up to any point. -/
theorem Serves.carries_reclaimOrphans (h : Serves engine slot extent) (stop : ℕ) :
    Carries slot engine extent (engine.performAll (engine.reclaimOrphansPlan.take stop)) extent := by
  rw [reclaimOrphansPlan_eq]
  exact h.carries_reclaimAll h.notMem_orphans stop

/-! ## A sweep -/

section

/-- `list_compaction_candidates`. -/
def compactionCandidates (engine : StorageEngine) (ratioPercent : UInt8) : List ExtentId :=
  (((engine.index.listExtents.filter fun e => shouldCompact e.2 ratioPercent).map
    fun e => (e.2.deletedBytes, e.1)).insertionSort
      fun a b => b.1 < a.1 ∨ a.1 = b.1 ∧ a.2 ≤ b.2).map Prod.snd

/-- Both removals. -/
def reclaimed (engine : StorageEngine) : StorageEngine :=
  let engine := engine.performAll engine.reclaimDroppedPlan
  engine.performAll engine.reclaimOrphansPlan

variable (crc32c : Bytes → UInt32)

def compactAll (clock : ExtentId → Int64) (engine : StorageEngine) (sources : List ExtentId) :
    StorageEngine :=
  sources.foldl (fun g source => g.performAll (compactPlan crc32c g source (clock source))) engine

/-- `run_sweep` without its scrub, which only reads. -/
def sweep (engine : StorageEngine) (ratioPercent : UInt8) (perSweep : ℕ)
    (clock : ExtentId → Int64) : StorageEngine :=
  let engine := engine.reclaimed
  engine.compactAll crc32c clock ((engine.compactionCandidates ratioPercent).take perSweep)

lemma mem_compactionCandidates {ratioPercent : UInt8}
    (h : extent ∈ engine.compactionCandidates ratioPercent) :
    (engine.index.getExtentMeta extent).isSome := by
  obtain ⟨p, hp, rfl⟩ := List.mem_map.mp h
  rw [List.mem_insertionSort] at hp
  obtain ⟨e, he, rfl⟩ := List.mem_map.mp hp
  have hmem := (List.mem_filter.mp he).1
  rw [show engine.index.getExtentMeta e.1 = some e.2 from
    (engine.index.extents.mem_toList_iff _ _).mp hmem]
  rfl

lemma nodup_compactionCandidates (engine : StorageEngine) (ratioPercent : UInt8) :
    (engine.compactionCandidates ratioPercent).Nodup := by
  have hperm := (List.perm_insertionSort (fun a b : UInt64 × ExtentId =>
    b.1 < a.1 ∨ a.1 = b.1 ∧ a.2 ≤ b.2) ((engine.index.listExtents.filter
      fun e => shouldCompact e.2 ratioPercent).map fun e => (e.2.deletedBytes, e.1))).map Prod.snd
  refine hperm.nodup_iff.mpr ?_
  rw [List.map_map]
  exact engine.index.extents.nodup_keys.sublist (List.filter_sublist.map _)

/-- After the removals the extents with metadata are the ones their slots are bound to. -/
lemma bound_of_reclaimed {m : ExtentMeta}
    (hm : engine.reclaimed.index.getExtentMeta extent = some m) :
    engine.reclaimed.index.bindings.get (shardPrefix m.shardId) = some extent := by
  unfold reclaimed at hm ⊢
  dsimp only at hm ⊢
  rw [reclaimDroppedPlan_eq] at hm ⊢
  generalize hg : engine.performAll (engine.dropped.flatMap reclaimPlan) = engine₁ at hm ⊢
  rw [reclaimOrphansPlan_eq] at hm ⊢
  rw [binding_performAll fun a ha => (mem_reclaimAll ha).2 _]
  rw [getExtentMeta_reclaimAll] at hm
  split_ifs at hm with horphan
  have hst : m.status ≠ .Dropped := by
    intro hst
    have hm₁ := hm
    rw [← hg, getExtentMeta_reclaimAll] at hm₁
    split_ifs at hm₁ with hdropped
    refine hdropped (mem_dropped.mpr ?_)
    rw [status, hm₁]
    exact congrArg some hst
  by_contra hunbound
  exact horphan (mem_orphans.mpr ⟨m, hm, hst, hunbound⟩)

lemma Tidy.reclaimed (h : Tidy engine) : Tidy engine.reclaimed := by
  unfold StorageEngine.reclaimed
  dsimp only
  rw [reclaimDroppedPlan_eq, reclaimOrphansPlan_eq]
  exact (h.reclaimAll _).reclaimAll _

lemma Serves.carries_reclaimed (h : Serves engine slot extent) :
    Carries slot engine extent engine.reclaimed extent := by
  have hdropped := h.carries_reclaimDropped engine.reclaimDroppedPlan.length
  rw [List.take_length] at hdropped
  have horphans := hdropped.serves.carries_reclaimOrphans
    (engine.performAll engine.reclaimDroppedPlan).reclaimOrphansPlan.length
  rw [List.take_length] at horphans
  exact hdropped.trans horphans

lemma binding_reclaimed (engine : StorageEngine) (slot : UInt64) :
    engine.reclaimed.index.bindings.get slot = engine.index.bindings.get slot := by
  unfold reclaimed
  dsimp only
  rw [reclaimDroppedPlan_eq, reclaimOrphansPlan_eq,
    binding_performAll fun a ha => (mem_reclaimAll ha).2 slot,
    binding_performAll fun a ha => (mem_reclaimAll ha).2 slot]

variable {source : ExtentId} {actions : List EngineAction} {sources : List ExtentId}

lemma Tidy.copies (h : Tidy engine) (hfile : (engine.files.get extent).isSome)
    (hknown : (engine.status extent).isSome) (hcopies : ∀ a ∈ actions, Copies extent a) :
    Tidy (engine.performAll actions) := by
  induction actions generalizing engine with
  | nil => exact h
  | cons a actions ih =>
    rw [performAll_cons]
    have hrest := fun b hb => hcopies b (List.mem_cons_of_mem a hb)
    rcases hcopies a List.mem_cons_self with ⟨r, rfl⟩ | ⟨blobs, size, rfl⟩
    · refine ih (h.perform trivial) (isSome_touch hfile (by simp)) ?_ hrest
      rw [status_perform]
      exact hknown
    · refine ih (h.perform ⟨hfile, hknown⟩) hfile ?_ hrest
      rw [status_perform]
      exact hknown

lemma Tidy.compact (h : Tidy engine) (source : ExtentId) (newTs : Int64) :
    Tidy (engine.performAll (compactPlan crc32c engine source newTs)) := by
  rcases compactPlan_cases crc32c engine source newTs with ⟨hplan, -⟩ | ⟨f, -, -, hplan⟩
  · rw [hplan]
    exact h.perform (a := .stopWriter source) trivial
  · rw [hplan, rewritePlan_eq, performAll_cons, performAll_cons]
    have hpaused : Tidy ((engine.perform (.stopWriter source)).perform
        (.setExtentStatus source .Full)) :=
      (h.perform (a := .stopWriter source) trivial).perform trivial
    by_cases hnew : (engine.files.get ⟨source.shardId, newTs⟩).isSome
    · rw [if_pos hnew]
      exact hpaused
    rw [if_neg hnew, performAll_append]
    have hfilled : Tidy (((engine.perform (.stopWriter source)).perform
        (.setExtentStatus source .Full)).performAll (fillPlan crc32c engine source f newTs)) := by
      rw [fillPlan, performAll_cons, performAll_cons]
      have hcreated := (hpaused.perform (a := .createFile ⟨source.shardId, newTs⟩) trivial).perform
        (a := .putExtentMeta ⟨source.shardId, newTs⟩
          (DiskIndex.freshMeta source.shardId .Writable newTs)) rfl
      refine hcreated.copies ?_ ?_
        (copyPlan_copies crc32c engine.index f ⟨source.shardId, newTs⟩ [] _)
      · show ((engine.files.insert _ _).get _).isSome
        rw [OrdMap.get_insert, if_pos rfl]
        rfl
      · rw [status_perform, statusAfter, if_pos rfl]
        rfl
    split_ifs
    · have hswap := hfilled.perform
        (a := .swapShardBinding source.shardId ⟨source.shardId, newTs⟩ source) trivial
      exact (hswap.reclaim source).perform (a := .spawnWriter ⟨source.shardId, newTs⟩) trivial
    · exact hfilled

lemma Tidy.compactAll (h : Tidy engine) (clock : ExtentId → Int64) (sources : List ExtentId) :
    Tidy (engine.compactAll crc32c clock sources) := by
  induction sources generalizing engine with
  | nil => exact h
  | cons source sources ih => exact ih (h.compact crc32c source (clock source))

/-- Compactions whose sources in the slot are the serving extent. -/
lemma Serves.carries_compactAll (h : Serves engine slot extent) (htidy : Tidy engine)
    (clock : ExtentId → Int64) (hnd : sources.Nodup)
    (hslot : ∀ source ∈ sources, shardPrefix source.shardId = slot → source = extent) :
    ∃ extent', Carries slot engine extent (engine.compactAll crc32c clock sources) extent' := by
  induction sources generalizing engine extent with
  | nil => exact ⟨extent, h.carries⟩
  | cons source sources ih =>
    rw [List.nodup_cons] at hnd
    have htidy' := htidy.compact crc32c source (clock source)
    by_cases hsource : shardPrefix source.shardId = slot
    · obtain rfl := hslot source List.mem_cons_self hsource
      obtain ⟨extent₁, hfirst⟩ : ∃ extent₁, Carries slot engine source
          (engine.performAll (compactPlan crc32c engine source (clock source))) extent₁ := by
        have hall := h.carries_compact crc32c (clock source) (fun hnone => htidy.stray hnone)
          (compactPlan crc32c engine source (clock source)).length
        rw [List.take_length] at hall
        rcases hall with hsame | ⟨-, hmoved⟩
        · exact ⟨source, hsame⟩
        · exact ⟨_, hmoved⟩
      obtain ⟨extent', hrest⟩ := ih hfirst.serves htidy' hnd.2 (by
        intro source' hmem hslot'
        have heq := hslot source' (List.mem_cons_of_mem source hmem) hslot'
        exact absurd (heq ▸ hmem) hnd.1)
      exact ⟨extent', hfirst.trans hrest⟩
    · have hfirst := h.carries_compact_other crc32c (clock source) hsource
        (compactPlan crc32c engine source (clock source)).length
      rw [List.take_length] at hfirst
      obtain ⟨extent', hrest⟩ := ih hfirst.serves htidy' hnd.2
        fun source' hmem => hslot source' (List.mem_cons_of_mem source hmem)
      exact ⟨extent', hfirst.trans hrest⟩

lemma binding_compactAll (clock : ExtentId → Int64)
    (hslot : ∀ source ∈ sources, shardPrefix source.shardId ≠ slot) (engine : StorageEngine) :
    (engine.compactAll crc32c clock sources).index.bindings.get slot
      = engine.index.bindings.get slot := by
  induction sources generalizing engine with
  | nil => rfl
  | cons source sources ih =>
    have hkeeps : ∀ a ∈ compactPlan crc32c engine source (clock source), KeepsBinding slot a :=
      fun a ha => (compactPlan_other crc32c _ (hslot source List.mem_cons_self) ha).2
    rw [← binding_performAll hkeeps engine]
    exact ih (fun source' hmem => hslot source' (List.mem_cons_of_mem source hmem)) _

/-- The sources of a sweep are bound. -/
lemma Tidy.bound_of_candidate (h : Tidy engine) {ratioPercent : UInt8} {perSweep : ℕ}
    (hmem : source ∈ (engine.reclaimed.compactionCandidates ratioPercent).take perSweep) :
    engine.reclaimed.index.bindings.get (shardPrefix source.shardId) = some source := by
  obtain ⟨m, hm⟩ := Option.isSome_iff_exists.mp
    (mem_compactionCandidates (List.mem_of_mem_take hmem))
  have hbound := bound_of_reclaimed hm
  rwa [h.reclaimed.owner source m hm] at hbound

/-- A maintenance sweep loses nothing live and brings nothing dead back. -/
theorem Serves.carries_sweep (h : Serves engine slot extent) (htidy : Tidy engine)
    (ratioPercent : UInt8) (perSweep : ℕ) (clock : ExtentId → Int64) :
    ∃ extent', Carries slot engine extent
      (engine.sweep crc32c ratioPercent perSweep clock) extent' := by
  have hreclaimed := h.carries_reclaimed
  obtain ⟨extent', hcompact⟩ := hreclaimed.serves.carries_compactAll crc32c htidy.reclaimed clock
    ((nodup_compactionCandidates engine.reclaimed ratioPercent).sublist (List.take_sublist _ _)) (by
      intro source hmem hslot
      have hbound := htidy.bound_of_candidate hmem
      rw [hslot, hreclaimed.serves.bound] at hbound
      exact (Option.some.inj hbound).symm)
  exact ⟨extent', hreclaimed.trans hcompact⟩

theorem Tidy.sweep (h : Tidy engine) (ratioPercent : UInt8) (perSweep : ℕ)
    (clock : ExtentId → Int64) : Tidy (engine.sweep crc32c ratioPercent perSweep clock) :=
  h.reclaimed.compactAll crc32c clock _

/-- A sweep binds no slot that was unbound. -/
lemma Tidy.unbound_sweep (h : Tidy engine) (hnone : engine.index.bindings.get slot = none)
    (ratioPercent : UInt8) (perSweep : ℕ) (clock : ExtentId → Int64) :
    (engine.sweep crc32c ratioPercent perSweep clock).index.bindings.get slot = none := by
  rw [StorageEngine.sweep, binding_compactAll, binding_reclaimed, hnone]
  intro source hmem hslot
  have hbound := h.bound_of_candidate hmem
  rw [hslot, binding_reclaimed, hnone] at hbound
  exact absurd hbound (by simp)

/-! ## Writers of bound extents -/

/-- Writers belong to bound extents. -/
def WritersBound (engine : StorageEngine) : Prop := ∀ extent ∈ engine.writers, engine.IsBound extent

/-- An action that changes neither a binding nor the writers. -/
def Unobserved (a : EngineAction) : Prop :=
  (∀ slot, KeepsBinding slot a) ∧ ∀ writers, register writers a = writers

lemma writers_performAll (h : ∀ a ∈ actions, Unobserved a) (engine : StorageEngine) :
    (engine.performAll actions).writers = engine.writers := by
  induction actions generalizing engine with
  | nil => rfl
  | cons a actions ih =>
    rw [performAll_cons, ih fun b hb => h b (List.mem_cons_of_mem a hb)]
    exact (h a List.mem_cons_self).2 _

lemma WritersBound.performAll (h : WritersBound engine) (hun : ∀ a ∈ actions, Unobserved a) :
    WritersBound (engine.performAll actions) := by
  intro extent hmem
  rw [writers_performAll hun] at hmem
  rw [IsBound, DiskIndex.getShardBinding, binding_performAll fun a ha => (hun a ha).1 _]
  exact h extent hmem

lemma unobserved_fillPlan {file : Stream} {newTs : Int64} :
    ∀ a ∈ fillPlan crc32c engine source file newTs, Unobserved a := by
  intro a ha
  refine ⟨(touches_fillPlan crc32c ha).2, ?_⟩
  rcases List.mem_cons.mp ha with rfl | ha
  · exact fun _ => rfl
  · rcases List.mem_cons.mp ha with rfl | ha
    · exact fun _ => rfl
    · rcases copyPlan_copies _ _ _ _ _ _ a ha with ⟨r, rfl⟩ | ⟨blobs, size, rfl⟩
      · exact fun _ => rfl
      · exact fun _ => rfl

lemma unobserved_reclaimAll {extents : List ExtentId} :
    ∀ a ∈ extents.flatMap reclaimPlan, Unobserved a := by
  intro a ha
  refine ⟨(mem_reclaimAll ha).2, ?_⟩
  obtain ⟨extent, -, ha⟩ := List.mem_flatMap.mp ha
  simp only [reclaimPlan, List.mem_cons, List.not_mem_nil, or_false] at ha
  rcases ha with rfl | rfl
  · exact fun _ => rfl
  · exact fun _ => rfl

lemma binding_rebindPlan (engine : StorageEngine) (source newExtent : ExtentId) (slot : UInt64) :
    (engine.performAll (rebindPlan source newExtent)).index.bindings.get slot
      = if shardPrefix source.shardId = slot then some newExtent
        else engine.index.bindings.get slot := by
  rw [rebindPlan, performAll_cons, binding_performAll, binding_perform, bindingAfter]
  intro a ha
  simp only [List.mem_cons, List.not_mem_nil, or_false] at ha
  rcases ha with rfl | rfl | rfl
  · exact fun _ => rfl
  · exact fun _ => rfl
  · exact fun _ => rfl

lemma writers_rebindPlan (engine : StorageEngine) (source newExtent : ExtentId) :
    (engine.performAll (rebindPlan source newExtent)).writers
      = insert newExtent engine.writers := by
  simp only [rebindPlan, performAll_cons, performAll_nil, perform, register]

/-- The rebind of a slot whose writer was released. -/
lemma WritersBound.rebind (h : WritersBound engine) (newTs : Int64)
    (hbound : engine.IsBound source) (hstopped : source ∉ engine.writers) :
    WritersBound (engine.performAll (rebindPlan source ⟨source.shardId, newTs⟩)) := by
  intro extent hmem
  rw [writers_rebindPlan] at hmem
  rw [IsBound, DiskIndex.getShardBinding, binding_rebindPlan]
  rcases Finset.mem_insert.mp hmem with rfl | hmem
  · rw [if_pos rfl]
  · have hext := h extent hmem
    split_ifs with hslot
    · rw [IsBound, DiskIndex.getShardBinding, ← hslot] at hext
      rw [IsBound, DiskIndex.getShardBinding, hext] at hbound
      rw [Option.some.inj hbound] at hmem
      exact absurd hmem hstopped
    · exact hext

lemma WritersBound.compact (h : WritersBound engine) (hbound : engine.IsBound source)
    (newTs : Int64) :
    WritersBound (engine.performAll (compactPlan crc32c engine source newTs)) := by
  have hstop : WritersBound (engine.perform (.stopWriter source)) :=
    fun extent hmem => h extent (Finset.mem_of_mem_erase hmem)
  rcases compactPlan_cases crc32c engine source newTs with ⟨hplan, -⟩ | ⟨f, -, -, hplan⟩
  · rw [hplan]
    exact hstop
  · rw [hplan, rewritePlan_eq, performAll_cons]
    have hpause : Unobserved (.setExtentStatus source .Full) :=
      ⟨fun _ _ => rfl, fun _ => rfl⟩
    by_cases hnew : (engine.files.get ⟨source.shardId, newTs⟩).isSome
    · rw [if_pos hnew]
      exact hstop.performAll fun a ha => List.mem_singleton.mp ha ▸ hpause
    rw [if_neg hnew, ← List.cons_append, performAll_append]
    have hun : ∀ a ∈ .setExtentStatus source .Full :: fillPlan crc32c engine source f newTs,
        Unobserved a := by
      intro a ha
      rcases List.mem_cons.mp ha with rfl | ha
      · exact hpause
      · exact unobserved_fillPlan crc32c a ha
    split_ifs
    · refine (hstop.performAll hun).rebind newTs ?_ ?_
      · rw [IsBound, DiskIndex.getShardBinding, binding_performAll fun a ha => (hun a ha).1 _]
        exact hbound
      · rw [writers_performAll hun]
        exact Finset.notMem_erase source engine.writers
    · exact hstop.performAll hun

/-- A compaction leaves other slots bound as they are. -/
lemma isBound_compact {source' : ExtentId} (newTs : Int64)
    (hslot : shardPrefix source.shardId ≠ shardPrefix source'.shardId)
    (hbound : engine.IsBound source') :
    (engine.performAll (compactPlan crc32c engine source newTs)).IsBound source' := by
  rw [IsBound, DiskIndex.getShardBinding,
    binding_performAll fun a ha => (compactPlan_other crc32c newTs hslot ha).2]
  exact hbound

lemma WritersBound.compactAll (h : WritersBound engine) (clock : ExtentId → Int64)
    (hnd : sources.Nodup) (hbound : ∀ source ∈ sources, engine.IsBound source) :
    WritersBound (engine.compactAll crc32c clock sources) := by
  induction sources generalizing engine with
  | nil => exact h
  | cons source sources ih =>
    rw [List.nodup_cons] at hnd
    have hsource := hbound source List.mem_cons_self
    refine ih (h.compact crc32c hsource (clock source)) hnd.2 ?_
    intro source' hmem
    have hsource' := hbound source' (List.mem_cons_of_mem source hmem)
    refine isBound_compact crc32c (clock source) ?_ hsource'
    intro hslot
    rw [IsBound, DiskIndex.getShardBinding, hslot] at hsource
    rw [IsBound, DiskIndex.getShardBinding, hsource] at hsource'
    exact hnd.1 (Option.some.inj hsource' ▸ hmem)

theorem WritersBound.sweep (h : WritersBound engine) (htidy : Tidy engine) (ratioPercent : UInt8)
    (perSweep : ℕ) (clock : ExtentId → Int64) :
    WritersBound (engine.sweep crc32c ratioPercent perSweep clock) := by
  refine WritersBound.compactAll crc32c ?_ clock
    ((nodup_compactionCandidates engine.reclaimed ratioPercent).sublist (List.take_sublist _ _))
    fun source hmem => htidy.bound_of_candidate hmem
  unfold StorageEngine.reclaimed
  dsimp only
  rw [reclaimDroppedPlan_eq, reclaimOrphansPlan_eq]
  exact (h.performAll unobserved_reclaimAll).performAll unobserved_reclaimAll

end

end StorageEngine

end Epoch
