import Epoch.Store.Compaction

/-!
# Losing the index (`service.rs`)

The index can be rebuilt from the extent files: an open installs every file that has no metadata,
with the entries that a scan finds, and binds its slot to it.  When a slot has several files, the one
that the directory lists last wins, be it the source of an interrupted compaction, its half-filled
destination, or an extent that waits for its removal (`last_listed_file_wins`).

`index_loss_keeps_readable` says that this is all: when the bound extent is the last one of its slot
that is listed, everything that was read before is read after.  The invariant behind it is about the
files: an entry leads to the last record of its blob, and records carry their extent's shard.
-/

namespace Epoch

namespace Stream

/-- A truncation leaves the leading records. -/
lemma exists_append_truncateTo (f : Stream) (size : ℕ) : ∃ f', f.truncateTo size ++ f' = f := by
  have hgeneral : ∀ start, ∃ f', ((located start f).filter
      fun e => e.1 + e.2.onDiskLen ≤ size).map Prod.snd ++ f' = f := by
    induction f with
    | nil => exact fun start => ⟨[], rfl⟩
    | cons r f ih =>
      intro start
      rw [located]
      by_cases hle : start + r.onDiskLen ≤ size
      · obtain ⟨f', hf'⟩ := ih (start + r.onDiskLen)
        refine ⟨f', ?_⟩
        rw [List.filter_cons_of_pos (by simpa using hle), List.map_cons, List.cons_append, hf']
      · -- later records end later
        have hnil : (located (start + r.onDiskLen) f).filter
            (fun e => e.1 + e.2.onDiskLen ≤ size) = [] := by
          rw [List.filter_eq_nil_iff]
          intro e he
          have hstart := (located_bounds he).1
          simp only [decide_eq_true_eq]
          omega
        refine ⟨r :: f, ?_⟩
        rw [List.filter_cons_of_neg (by simpa using hle), hnil]
        rfl
  exact hgeneral EXTENT_HEADER_LEN

end Stream

namespace StorageEngine

/-! ## Entries lead to last records -/

/-- Entries lead to the last records of their blobs, records carry their extent's shard, and files
end within the file offsets. -/
structure Logged (blobs : OrdMap BlobKey BlobIndex) (files : OrdMap ExtentId Stream) : Prop where
  last : ∀ extent f blob entry, files.get extent = some f →
    blobs.get (toLex (extent, blob)) = some entry →
      ∀ e ∈ f.scan, e.2.blobId = blob → e.1 ≤ entry.offset.toNat
  shard : ∀ extent f, files.get extent = some f → ∀ r ∈ f, r.shardId = extent.shardId
  small : ∀ extent f, files.get extent = some f → f.writeOffset < 2 ^ 63

section

variable (crc32c : Bytes → UInt32)

/-- The entries that a scan finds, in order. -/
def scanEntries (l : List (ℕ × Record)) : List (BlobId × BlobIndex) :=
  l.map fun e => (e.2.blobId, entryOf crc32c e.1 e.2)

/-- What an action needs to keep the files logged. -/
def Logs (engine : StorageEngine) : EngineAction → Prop
  | .appendRecord extent r =>
    r.shardId = extent.shardId ∧ engine.index.getBlob extent r.blobId = none
      ∧ Stream.writeOffset ((engine.files.get extent).getD [] ++ [r]) < 2 ^ 63
  | .commitBlobs extent blobs _ =>
    ∀ b ∈ blobs, ∀ f, engine.files.get extent = some f →
      ∀ e ∈ f.scan, e.2.blobId = b.1 → e.1 ≤ b.2.offset.toNat
  | .installExtent extent _ blobs =>
    blobs = [] ∨ ∃ f, engine.files.get extent = some f ∧ blobs = scanEntries crc32c f.scan
  | _ => True

variable {engine : StorageEngine} {extent : ExtentId} {f : Stream} {blob : BlobId} {e : ℕ × Record}
  {a : EngineAction}

/-- Of several entries of a blob the last one stays. -/
lemma get_scanEntries (blobs : OrdMap BlobKey BlobIndex) (extent : ExtentId)
    {l : List (ℕ × Record)} (hsorted : l.Pairwise fun a b => a.1 ≤ b.1)
    (h : ∃ e ∈ l, e.2.blobId = blob) :
    ∃ e ∈ l, e.2.blobId = blob
      ∧ (blobs.writeAll (DiskIndex.blobPuts extent (scanEntries crc32c l))).get
          (toLex (extent, blob)) = some (entryOf crc32c e.1 e.2)
      ∧ ∀ e' ∈ l, e'.2.blobId = blob → e'.1 ≤ e.1 := by
  induction l using List.reverseRecOn with
  | nil => simp at h
  | append_singleton l e ih =>
    rw [List.pairwise_append] at hsorted
    obtain ⟨hsorted, -, hle⟩ := hsorted
    have hputs : DiskIndex.blobPuts extent (scanEntries crc32c (l ++ [e]))
        = DiskIndex.blobPuts extent (scanEntries crc32c l)
          ++ DiskIndex.blobPuts extent [(e.2.blobId, entryOf crc32c e.1 e.2)] := by
      simp [DiskIndex.blobPuts, scanEntries]
    rw [hputs, OrdMap.writeAll_append]
    by_cases hblob : e.2.blobId = blob
    · refine ⟨e, by simp, hblob, ?_, ?_⟩
      · rw [← hblob]
        exact DiskIndex.get_blobPuts_of_mem (by simp) List.mem_cons_self
      · intro e' he' _
        rcases List.mem_append.mp he' with he' | he'
        · exact hle e' he' e List.mem_cons_self
        · rw [List.mem_singleton.mp he']
    · obtain ⟨e₀, he₀, hblob₀⟩ := h
      have hmem : e₀ ∈ l := by
        rcases List.mem_append.mp he₀ with hmem | hmem
        · exact hmem
        · rw [List.mem_singleton.mp hmem] at hblob₀
          exact absurd hblob₀ hblob
      obtain ⟨e₁, he₁, hblob₁, hget, hmax⟩ := ih hsorted ⟨e₀, hmem, hblob₀⟩
      refine ⟨e₁, List.mem_append_left _ he₁, hblob₁, ?_, ?_⟩
      · rw [DiskIndex.get_blobPuts_of_notMem, hget]
        intro _ hnot
        have heq : blob = e.2.blobId := by simpa using hnot
        exact hblob heq.symm
      · intro e' he' hblob'
        rcases List.mem_append.mp he' with he' | he'
        · exact hmax e' he' hblob'
        · rw [List.mem_singleton.mp he'] at hblob'
          exact absurd hblob' hblob

lemma scan_sorted (f : Stream) : f.scan.Pairwise fun a b => a.1 ≤ b.1 :=
  (Stream.located_pairwise _ f).imp fun h => (Nat.le_add_right _ _).trans h

lemma toNat_entryOf (hsmall : f.writeOffset < 2 ^ 63) (he : e ∈ f.scan) :
    (entryOf crc32c e.1 e.2).offset.toNat = e.1 := by
  show (UInt64.ofNat e.1).toNat = e.1
  have hbound := (Stream.located_bounds he).2
  refine UInt64.toNat_ofNat_of_lt' (lt_of_le_of_lt ?_ (lt_trans hsmall (by decide)))
  exact (Nat.le_add_right _ _).trans hbound

/-- The file of an extent after an action. -/
lemma touch_cases {files : OrdMap ExtentId Stream} (h : (touch files a).get extent = some f) :
    files.get extent = some f ∨ (a = .createFile extent ∧ f = [])
      ∨ (∃ r, a = .appendRecord extent r ∧ f = (files.get extent).getD [] ++ [r])
      ∨ ∃ size, a = .truncateTo extent size
          ∧ f = ((files.get extent).getD []).truncateTo size := by
  cases a with
  | createFile extent' =>
    rw [touch, OrdMap.get_insert] at h
    split_ifs at h with heq
    · obtain rfl := heq
      exact Or.inr (Or.inl ⟨rfl, (Option.some.inj h).symm⟩)
    · exact Or.inl h
  | appendRecord extent' r =>
    rw [touch, OrdMap.get_insert] at h
    split_ifs at h with heq
    · obtain rfl := heq
      exact Or.inr (Or.inr (Or.inl ⟨r, rfl, (Option.some.inj h).symm⟩))
    · exact Or.inl h
  | truncateTo extent' size =>
    rw [touch, OrdMap.get_insert] at h
    split_ifs at h with heq
    · obtain rfl := heq
      exact Or.inr (Or.inr (Or.inr ⟨size, rfl, (Option.some.inj h).symm⟩))
    · exact Or.inl h
  | moveToTrash extent' =>
    rw [touch, OrdMap.get_erase] at h
    split_ifs at h
    exact Or.inl h
  | _ => exact Or.inl h

/-- Records that were in a file before. -/
lemma Logged.mem_getD {blobs : OrdMap BlobKey BlobIndex} {files : OrdMap ExtentId Stream}
    (h : Logged blobs files) {entry : BlobIndex}
    (hget : blobs.get (toLex (extent, blob)) = some entry)
    (he : e ∈ Stream.scan ((files.get extent).getD [])) (hblob : e.2.blobId = blob) :
    e.1 ≤ entry.offset.toNat := by
  cases hfile : files.get extent with
  | none =>
    rw [hfile] at he
    exact absurd he (by simp [Stream.scan, Stream.located])
  | some f =>
    rw [hfile] at he
    exact h.last extent f blob entry hfile hget e he hblob

lemma Logged.last_perform (h : Logged engine.index.blobs engine.files) (ha : engine.Logs crc32c a)
    {entry : BlobIndex} (hfile : (engine.perform a).files.get extent = some f)
    (hget : (engine.perform a).index.getBlob extent blob = some entry) (he : e ∈ f.scan)
    (hblob : e.2.blobId = blob) : e.1 ≤ entry.offset.toNat := by
  rcases getBlob_perform hget with ⟨old, hold, hoff, -⟩ | ⟨blobs, size, rfl, hmem⟩ | ⟨m, blobs, rfl, hmem⟩
  · rw [hoff]
    rcases touch_cases hfile with hsame | ⟨rfl, rfl⟩ | ⟨r, rfl, rfl⟩ | ⟨size, rfl, rfl⟩
    · exact h.last extent f blob old hsame hold e he hblob
    · exact absurd he (by simp [Stream.scan, Stream.located])
    · rw [Stream.scan_append] at he
      rcases List.mem_append.mp he with he | he
      · exact h.mem_getD hold he hblob
      · -- the appended record is of a blob without an entry
        have heq : e.2 = r := by
          rw [Stream.located, Stream.located, List.mem_singleton] at he
          rw [he]
        rw [← hblob, heq, ha.2.1] at hold
        exact absurd hold (by simp)
    · obtain ⟨f', hf'⟩ := Stream.exists_append_truncateTo ((engine.files.get extent).getD []) size
      refine h.mem_getD hold ?_ hblob
      rw [← hf', Stream.scan_append]
      exact List.mem_append_left _ he
  · exact ha (blob, entry) hmem f hfile e he hblob
  · rcases ha with rfl | ⟨f', hfile', rfl⟩
    · exact absurd hmem List.not_mem_nil
    · obtain rfl : f = f' := Option.some.inj (hfile.symm.trans hfile')
      obtain ⟨e', he', -, hget', hmax⟩ :=
        get_scanEntries crc32c engine.index.blobs extent (scan_sorted f) ⟨e, he, hblob⟩
      change (engine.index.write (DiskIndex.installExtent _ _ _)).blobs.get _ = _ at hget
      rw [DiskIndex.write_installExtent] at hget
      rw [← Option.some.inj (hget'.symm.trans hget), toNat_entryOf crc32c (h.small _ _ hfile') he']
      exact hmax e he hblob

lemma Logged.perform (h : Logged engine.index.blobs engine.files) (ha : engine.Logs crc32c a) :
    Logged (engine.perform a).index.blobs (engine.perform a).files := by
  refine ⟨?_, ?_, ?_⟩
  · intro extent f blob entry hfile hget e he hblob
    exact h.last_perform crc32c ha hfile hget he hblob
  · intro extent f hfile r hr
    have hold : ∀ r ∈ (engine.files.get extent).getD [], r.shardId = extent.shardId := by
      intro r hr
      cases hf : engine.files.get extent with
      | none =>
        rw [hf] at hr
        exact absurd hr List.not_mem_nil
      | some f' =>
        rw [hf] at hr
        exact h.shard extent f' hf r hr
    rcases touch_cases hfile with hsame | ⟨rfl, rfl⟩ | ⟨r', rfl, rfl⟩ | ⟨size, rfl, rfl⟩
    · exact h.shard extent f hsame r hr
    · exact absurd hr List.not_mem_nil
    · rcases List.mem_append.mp hr with hr | hr
      · exact hold r hr
      · rw [List.mem_singleton.mp hr]
        exact ha.1
    · obtain ⟨f', hf'⟩ := Stream.exists_append_truncateTo ((engine.files.get extent).getD []) size
      refine hold r ?_
      rw [← hf']
      exact List.mem_append_left _ hr
  · intro extent f hfile
    have hold : Stream.writeOffset ((engine.files.get extent).getD []) < 2 ^ 63 := by
      cases hf : engine.files.get extent with
      | none => decide
      | some f' => exact h.small extent f' hf
    rcases touch_cases hfile with hsame | ⟨rfl, rfl⟩ | ⟨r', rfl, rfl⟩ | ⟨size, rfl, rfl⟩
    · exact h.small extent f hsame
    · decide
    · exact ha.2.2
    · obtain ⟨f', hf'⟩ := Stream.exists_append_truncateTo ((engine.files.get extent).getD []) size
      refine lt_of_le_of_lt ?_ hold
      conv_rhs => rw [← hf']
      rw [Stream.writeOffset, Stream.writeOffset, Stream.len_append]
      omega

lemma Logged.performAll (h : Logged engine.index.blobs engine.files) {actions : List EngineAction}
    (ha : Along StorageEngine.perform (Logs crc32c) engine actions) :
    Logged (engine.performAll actions).index.blobs (engine.performAll actions).files :=
  Along.invariant (P := fun g : StorageEngine => Logged g.index.blobs g.files)
    (fun _ _ hg hlogs => hg.perform crc32c hlogs) h ha

/-! ## Plans -/

/-- The appended record of a blob without an entry is its last one. -/
lemma logs_appendPlan {r : Record} (hfile : engine.files.get extent = some f)
    (hshard : r.shardId = extent.shardId) (hnone : engine.index.getBlob extent r.blobId = none)
    (hacc : f.accepts r.body = true) :
    Along StorageEngine.perform (Logs crc32c) engine (appendPlan crc32c extent f r) := by
  have hroom : Stream.writeOffset (f ++ [r]) < 2 ^ 63 := by
    rw [Stream.accepts, Bool.and_eq_true, decide_eq_true_eq, decide_eq_true_eq] at hacc
    rw [Stream.writeOffset_append]
    exact hacc.2
  refine ⟨⟨hshard, hnone, by rw [hfile]; exact hroom⟩, ?_, trivial⟩
  intro b hb f' hfile' e he _
  rw [List.mem_singleton.mp hb, toNat_offset_entryOf crc32c hacc]
  have hf' : f' = f ++ [r] := by
    change (engine.files.insert extent ((engine.files.get extent).getD [] ++ [r])).get extent
      = some f' at hfile'
    rw [OrdMap.get_insert, if_pos rfl, hfile] at hfile'
    exact (Option.some.inj hfile').symm
  rw [hf', Stream.scan_append] at he
  rcases List.mem_append.mp he with he | he
  · exact (Nat.le_add_right _ _).trans (Stream.located_bounds he).2
  · rw [Stream.located, Stream.located, List.mem_singleton] at he
    rw [he]

lemma logs_copyPlan {index : DiskIndex} {source dest : Stream} {live : List (BlobId × BlobIndex)}
    (hfile : engine.files.get extent = some dest) (hnd : (live.map Prod.fst).Nodup)
    (hfree : ∀ b ∈ live, index.getBlob extent b.1 = none → engine.index.getBlob extent b.1 = none) :
    Along StorageEngine.perform (Logs crc32c) engine
      (copyPlan crc32c index source extent dest live).1 := by
  induction live generalizing engine dest with
  | nil => trivial
  | cons b live ih =>
    rw [List.map_cons, List.nodup_cons] at hnd
    unfold copyPlan
    cases hread : source.readRecord b.2.offset.toNat with
    | none => trivial
    | some r' =>
      dsimp only
      by_cases hsome : (index.getBlob extent b.1).isSome
      · rw [if_pos hsome]
        exact ih hfile hnd.2 fun b' hb' => hfree b' (List.mem_cons_of_mem b hb')
      rw [if_neg hsome]
      by_cases hacc : dest.accepts r'.body = true
      swap
      · rw [if_neg hacc]
        trivial
      rw [if_pos hacc]
      have hnone := hfree b List.mem_cons_self (Option.not_isSome_iff_eq_none.mp hsome)
      have hfirst := logs_appendPlan crc32c (r := ⟨b.1, extent.shardId, r'.body⟩) hfile rfl
        hnone hacc
      refine ⟨hfirst.1, hfirst.2.1, ih (files_appendPlan crc32c hfile) hnd.2 ?_⟩
      intro b' hb' hnone'
      have hne : b'.1 ≠ b.1 := fun heq => hnd.1 (heq ▸ List.mem_map_of_mem hb')
      rw [show (((engine.perform _).perform _).index.getBlob extent b'.1)
        = _ from getBlob_appendPlan crc32c b'.1, if_neg hne]
      exact hfree b' (List.mem_cons_of_mem b hb') hnone'

lemma logs_compactPlan (source : ExtentId) (newTs : Int64) :
    Along StorageEngine.perform (Logs crc32c) engine (compactPlan crc32c engine source newTs) := by
  rcases compactPlan_cases crc32c engine source newTs with ⟨hplan, -⟩ | ⟨f, -, -, hplan⟩
  · rw [hplan]
    exact ⟨trivial, trivial⟩
  · rw [hplan, rewritePlan_eq]
    refine ⟨trivial, trivial, ?_⟩
    by_cases hnew : (engine.files.get ⟨source.shardId, newTs⟩).isSome
    · rw [if_pos hnew]
      trivial
    rw [if_neg hnew]
    refine (along_append _ _ _).mpr ⟨⟨trivial, trivial, ?_⟩, ?_⟩
    · refine logs_copyPlan crc32c ?_ ?_ ?_
      · show (engine.files.insert _ []).get _ = _
        rw [OrdMap.get_insert, if_pos rfl]
      · exact (engine.index.nodup_listBlobs source).sublist (List.filter_sublist.map _)
      · intro b _ hnone
        have hblobs := blobs_setStatus (engine.perform (.stopWriter source)) source .Full
        show OrdMap.get (((engine.perform (.stopWriter source)).perform
          (.setExtentStatus source .Full)).index.blobs) _ = none
        rw [hblobs]
        exact hnone
    · refine along_of_forall ?_ _
      intro a ha g
      split_ifs at ha
      · simp only [rebindPlan, List.mem_cons, List.not_mem_nil, or_false] at ha
        rcases ha with rfl | rfl | rfl | rfl <;> trivial
      · exact absurd ha List.not_mem_nil

lemma logs_createPlan (shard : ShardId) (createTs : Int64) (st : ExtentStatus) :
    Along StorageEngine.perform (Logs crc32c) engine (engine.createPlan shard createTs st) := by
  have hinstall : ∀ g : StorageEngine,
      Along StorageEngine.perform (Logs crc32c) g (installPlan shard createTs st) :=
    fun g => ⟨trivial, Or.inl rfl, trivial, trivial⟩
  unfold createPlan
  cases engine.files.get ⟨shard, createTs⟩ with
  | none => exact hinstall engine
  | some f =>
    cases engine.index.getExtentMeta ⟨shard, createTs⟩ with
    | some m => trivial
    | none => exact ⟨trivial, hinstall _⟩

lemma logs_writePlan (extent : ExtentId) (blob : BlobId) (body : Bytes) :
    Along StorageEngine.perform (Logs crc32c) engine
      (writePlan crc32c engine extent blob body).1 := by
  rcases writePlan_cases crc32c engine extent blob body with
    ⟨err, hplan⟩ | ⟨-, -, ⟨entry, -, hplan⟩ | ⟨f, hget, hfile, hacc, hplan⟩⟩
  · rw [hplan]
    trivial
  · rw [hplan]
    trivial
  · rw [hplan]
    exact logs_appendPlan crc32c hfile rfl hget hacc

lemma logs_reclaimAll {extents : List ExtentId} :
    ∀ a ∈ extents.flatMap reclaimPlan, ∀ g : StorageEngine, g.Logs crc32c a := by
  intro a ha g
  obtain ⟨extent, -, ha⟩ := List.mem_flatMap.mp ha
  simp only [reclaimPlan, List.mem_cons, List.not_mem_nil, or_false] at ha
  rcases ha with rfl | rfl <;> trivial

/-- What recovery installs are the entries of the scan. -/
lemma recoverPlan_eq (hshard : ∀ r ∈ f, r.shardId = extent.shardId)
    (hfile : engine.files.get extent = some f) (hmeta : engine.index.getExtentMeta extent = none) :
    recoverPlan crc32c engine extent
      = [.installExtent extent
          ⟨extent.shardId, .Writable, UInt64.ofNat f.writeOffset, 0, extent.createTs⟩
          (scanEntries crc32c f.scan)] := by
  have hown : f.scan.filter (fun e => e.2.shardId = extent.shardId) = f.scan := by
    rw [List.filter_eq_self]
    intro e he
    have hmem : e.2 ∈ f := by
      rw [← Stream.map_snd_located EXTENT_HEADER_LEN f]
      exact List.mem_map_of_mem he
    exact decide_eq_true (hshard e.2 hmem)
  unfold recoverPlan
  simp only [hfile, hmeta, hown]
  rfl

lemma Logged.logs_recoverPlan (h : Logged engine.index.blobs engine.files) (extent : ExtentId) :
    Along StorageEngine.perform (Logs crc32c) engine (recoverPlan crc32c engine extent) := by
  cases hfile : engine.files.get extent with
  | none =>
    unfold recoverPlan
    rw [hfile]
    trivial
  | some f =>
    cases hmeta : engine.index.getExtentMeta extent with
    | some m =>
      unfold recoverPlan
      simp only [hfile, hmeta]
      split_ifs <;> simp [Along, Logs]
    | none =>
      rw [recoverPlan_eq crc32c (h.shard extent f hfile) hfile hmeta]
      exact ⟨Or.inr ⟨f, hfile, rfl⟩, trivial⟩

lemma Logged.recoverAll (h : Logged engine.index.blobs engine.files) (order : List ExtentId) :
    Logged (recoverAll crc32c engine order).index.blobs (recoverAll crc32c engine order).files := by
  induction order generalizing engine with
  | nil => exact h
  | cons extent order ih => exact ih (h.performAll crc32c (h.logs_recoverPlan crc32c extent))

end

end StorageEngine

/-! ## Runs -/

/-- An operation of the engine. -/
inductive DiskOp
  | createExtent (shard : ShardId) (createTs : Int64)
  | createRebuilding (shard : ShardId) (createTs : Int64)
  | promote (extent : ExtentId)
  | sealExtent (extent : ExtentId)
  | write (extent : ExtentId) (blob : BlobId) (body : Bytes)
  | delete (extent : ExtentId) (blob : BlobId)
  | compact (source : ExtentId) (newTs : Int64)
  | reclaimDropped
  | reclaimOrphans
deriving DecidableEq

inductive DiskStep
  -- the operation stops after this many actions
  | operate (op : DiskOp) (stop : ℕ)
  | crash (loses : Bool)
  | reopen (order : List ExtentId) (done : ℕ)
deriving DecidableEq

namespace DiskState

open StorageEngine

def empty : DiskState := ⟨.empty, .empty⟩

section

variable (crc32c : Bytes → UInt32)

def plan (engine : StorageEngine) : DiskOp → List EngineAction
  | .createExtent shard createTs => engine.createPlan shard createTs .Writable
  | .createRebuilding shard createTs => engine.createPlan shard createTs .Rebuilding
  | .promote extent => engine.promotePlan extent
  | .sealExtent extent => engine.sealPlan extent
  | .write extent blob body => (writePlan crc32c engine extent blob body).1
  | .delete extent blob => engine.deletePlan extent blob
  | .compact source newTs => compactPlan crc32c engine source newTs
  | .reclaimDropped => engine.reclaimDroppedPlan
  | .reclaimOrphans => engine.reclaimOrphansPlan

def step (s : DiskState) : DiskStep → DiskState
  | .operate op stop => s.performAll ((plan crc32c s.engine op).take stop)
  | .crash loses => ⟨s.crash loses, (s.crash loses).index⟩
  | .reopen order done =>
    ⟨s.engine.recoveryStep crc32c (.reopen order done),
      (s.engine.recoveryStep crc32c (.reopen order done)).index⟩

/-- The index is deleted and the disk opened. -/
def loseIndex (s : DiskState) (order : List ExtentId) : StorageEngine :=
  StorageEngine.reopen crc32c { s.engine with index := .empty } order

/-- Files are logged, and only metadata can be missing from the durable index. -/
structure LoggedState (s : DiskState) : Prop where
  logged : Logged s.engine.index.blobs s.engine.files
  durable : s.durable.blobs = s.engine.index.blobs

variable {s : DiskState}

lemma durable_perform (h : s.durable.blobs = s.engine.index.blobs) (a : EngineAction) :
    (s.perform a).durable.blobs = (s.perform a).engine.index.blobs := by
  cases a with
  | installExtent extent m blobs => rfl
  | commitBlobs extent blobs size => rfl
  | setExtentStatus extent status => rfl
  | tombstoneBlob extent blob => rfl
  | swapShardBinding shard newExtent oldExtent => rfl
  | removeExtent extent => rfl
  | _ => exact h

lemma LoggedState.performAll (h : LoggedState s) {actions : List EngineAction}
    (ha : Along StorageEngine.perform (Logs crc32c) s.engine actions) :
    LoggedState (s.performAll actions) := by
  refine ⟨?_, ?_⟩
  · rw [engine_performAll]
    exact h.logged.performAll crc32c ha
  · have hdurable : ∀ t : DiskState, t.durable.blobs = t.engine.index.blobs →
        (t.performAll actions).durable.blobs = (t.performAll actions).engine.index.blobs := by
      clear ha
      induction actions with
      | nil => exact fun _ ht => ht
      | cons a actions ih => exact fun t ht => ih (t.perform a) (durable_perform ht a)
    exact hdurable s h.durable

lemma logs_plan (engine : StorageEngine) (op : DiskOp) :
    Along StorageEngine.perform (Logs crc32c) engine (plan crc32c engine op) := by
  cases op with
  | createExtent shard createTs => exact logs_createPlan crc32c shard createTs .Writable
  | createRebuilding shard createTs => exact logs_createPlan crc32c shard createTs .Rebuilding
  | promote extent =>
    simp only [plan, promotePlan]
    split_ifs <;> simp [Along, Logs]
  | sealExtent extent =>
    simp only [plan, sealPlan]
    split_ifs <;> simp [Along, Logs]
  | write extent blob body => exact logs_writePlan crc32c extent blob body
  | delete extent blob => exact ⟨trivial, trivial⟩
  | compact source newTs => exact logs_compactPlan crc32c source newTs
  | reclaimDropped =>
    unfold plan
    rw [reclaimDroppedPlan_eq]
    exact along_of_forall (logs_reclaimAll crc32c) engine
  | reclaimOrphans =>
    unfold plan
    rw [reclaimOrphansPlan_eq]
    exact along_of_forall (logs_reclaimAll crc32c) engine

lemma LoggedState.step (h : LoggedState s) (a : DiskStep) : LoggedState (s.step crc32c a) := by
  cases a with
  | operate op stop => exact h.performAll crc32c ((logs_plan crc32c s.engine op).take stop)
  | crash loses =>
    refine ⟨?_, rfl⟩
    cases loses with
    | false => exact h.logged
    | true =>
      show Logged s.durable.blobs s.engine.files
      rw [h.durable]
      exact h.logged
  | reopen order done =>
    refine ⟨?_, rfl⟩
    have hclosed : Logged ({ s.engine with writers := ∅ } : StorageEngine).index.blobs
        ({ s.engine with writers := ∅ } : StorageEngine).files := h.logged
    show Logged (recoveryStep crc32c s.engine (.reopen order done)).index.blobs
      (recoveryStep crc32c s.engine (.reopen order done)).files
    simp only [recoveryStep]
    split_ifs
    · exact hclosed.recoverAll crc32c order
    · exact hclosed.recoverAll crc32c _

lemma loggedState_empty : LoggedState .empty := by
  refine ⟨⟨?_, ?_, ?_⟩, rfl⟩
  · intro extent f blob entry hfile
    exact absurd hfile (by simp [empty, StorageEngine.empty])
  · intro extent f hfile
    exact absurd hfile (by simp [empty, StorageEngine.empty])
  · intro extent f hfile
    exact absurd hfile (by simp [empty, StorageEngine.empty])

end

end DiskState

/-! ## The rebuild -/

namespace StorageEngine

section

variable (crc32c : Bytes → UInt32) {engine : StorageEngine} {extent : ExtentId} {slot : UInt64}

lemma touches_recoverPlan {extent' : ExtentId} {a : EngineAction}
    (ha : a ∈ recoverPlan crc32c engine extent') :
    a.touches = [extent'] ∧ ∀ slot, shardPrefix extent'.shardId ≠ slot → KeepsBinding slot a := by
  unfold recoverPlan at ha
  cases hfile : engine.files.get extent' with
  | none =>
    rw [hfile] at ha
    exact absurd ha List.not_mem_nil
  | some f =>
    cases hmeta : engine.index.getExtentMeta extent' with
    | some m =>
      simp only [hfile, hmeta] at ha
      split_ifs at ha
      · rw [List.mem_singleton.mp ha]
        exact ⟨rfl, fun _ _ _ => rfl⟩
      · exact absurd ha List.not_mem_nil
    | none =>
      simp only [hfile, hmeta] at ha
      rw [List.mem_singleton.mp ha]
      exact ⟨rfl, fun _ hslot _ => if_neg hslot⟩

variable {order : List ExtentId}

lemma untouched_recoverAll (h : extent ∉ order) (engine : StorageEngine) :
    Untouched extent engine (recoverAll crc32c engine order) := by
  induction order generalizing engine with
  | nil => exact Untouched.refl extent engine
  | cons extent' order ih =>
    rw [List.mem_cons, not_or] at h
    refine Untouched.trans (untouched_performAll ?_ engine) (ih h.2 _)
    intro a ha
    rw [(touches_recoverPlan crc32c ha).1, List.mem_singleton]
    exact h.1

lemma binding_recoverAll (h : ∀ extent ∈ order, shardPrefix extent.shardId ≠ slot)
    (engine : StorageEngine) :
    (recoverAll crc32c engine order).index.bindings.get slot = engine.index.bindings.get slot := by
  induction order generalizing engine with
  | nil => rfl
  | cons extent' order ih =>
    have hfirst : (engine.performAll (recoverPlan crc32c engine extent')).index.bindings.get slot
        = engine.index.bindings.get slot :=
      binding_performAll (fun a ha => (touches_recoverPlan crc32c ha).2 slot
        (h extent' List.mem_cons_self)) engine
    rw [← hfirst]
    exact ih (fun extent hmem => h extent (List.mem_cons_of_mem extent' hmem)) _

/-- The last listed extent of a slot. -/
lemma split_of_getLast (hnd : order.Nodup)
    (h : (order.filter fun e => shardPrefix e.shardId = slot).getLast? = some extent) :
    ∃ before after, order = before ++ extent :: after ∧ extent ∉ before ∧ extent ∉ after
      ∧ ∀ e ∈ after, shardPrefix e.shardId ≠ slot := by
  have hmem : extent ∈ order := (List.mem_filter.mp (List.mem_of_getLast? h)).1
  have hslot : decide (shardPrefix extent.shardId = slot) = true :=
    (List.mem_filter.mp (List.mem_of_getLast? h)).2
  obtain ⟨before, after, rfl⟩ := List.append_of_mem hmem
  rw [List.nodup_append, List.nodup_cons] at hnd
  obtain ⟨-, ⟨hafter, -⟩, hbefore⟩ := hnd
  refine ⟨before, after, rfl, ?_, hafter, ?_⟩
  · intro hmem'
    exact hbefore extent hmem' extent List.mem_cons_self rfl
  · intro e he heq
    rw [List.filter_append, List.filter_cons, if_pos hslot] at h
    have hin : e ∈ after.filter (fun e => shardPrefix e.shardId = slot) :=
      List.mem_filter.mpr ⟨he, decide_eq_true heq⟩
    cases htail : after.filter (fun e => shardPrefix e.shardId = slot) with
    | nil =>
      rw [htail] at hin
      exact absurd hin List.not_mem_nil
    | cons e' tail =>
      rw [htail, List.getLast?_append, List.getLast?_cons_cons] at h
      have hmem' : extent ∈ e' :: tail := by
        rw [List.getLast?_eq_some_getLast (List.cons_ne_nil e' tail)] at h
        rw [← Option.some.inj h]
        exact List.getLast_mem _
      rw [← htail] at hmem'
      exact hafter (List.mem_filter.mp hmem').1

/-- What a successful read went through. -/
lemma readShard_eq_some {shard : ShardId} {blob : BlobId} {body : Bytes}
    (h : engine.readShard shard blob = .ok (some body))
    (hbound : engine.index.getShardBinding shard = some extent) :
    ∃ f entry r, engine.files.get extent = some f
      ∧ engine.index.getBlob extent blob = some entry
      ∧ f.readRecord entry.offset.toNat = some r ∧ r.blobId = blob ∧ r.body = body := by
  unfold readShard at h
  simp only [hbound] at h
  cases hfile : engine.files.get extent with
  | none => simp [hfile] at h
  | some f =>
    simp only [hfile, readBlob] at h
    cases hget : engine.index.getBlob extent blob with
    | none => simp [hget] at h
    | some entry =>
      simp only [hget] at h
      cases hrec : f.readRecord entry.offset.toNat with
      | none => simp [hrec] at h
      | some r =>
        simp only [hrec] at h
        split_ifs at h with hblob
        refine ⟨f, entry, r, rfl, rfl, hrec, hblob, ?_⟩
        simpa using h

/-- A file that is installed from its scan is read as before. -/
lemma Logged.readBlob_install {blobs : OrdMap BlobKey BlobIndex}
    {files : OrdMap ExtentId Stream} (h : Logged blobs files)
    (blobs' : OrdMap BlobKey BlobIndex) {f : Stream} {blob : BlobId}
    {entry : BlobIndex} {r : Record} (hfile : files.get extent = some f)
    (hget : blobs.get (toLex (extent, blob)) = some entry)
    (hread : f.readRecord entry.offset.toNat = some r) (hblob : r.blobId = blob) :
    ∃ entry', (blobs'.writeAll (DiskIndex.blobPuts extent (scanEntries crc32c f.scan))).get
        (toLex (extent, blob)) = some entry' ∧ f.readRecord entry'.offset.toNat = some r := by
  have hmem := Stream.readRecord_eq_some.mp hread
  obtain ⟨e, he, hblob', hget', hmax⟩ :=
    get_scanEntries crc32c blobs' extent (scan_sorted f) ⟨_, hmem, hblob⟩
  refine ⟨_, hget', ?_⟩
  -- both are the last record of the blob
  have hle := hmax _ hmem hblob
  have hge := h.last extent f blob entry hfile hget e he hblob'
  have heq : e = (entry.offset.toNat, r) :=
    Stream.located_offset_inj he hmem (le_antisymm hge hle)
  rw [toNat_entryOf crc32c (h.small extent f hfile) he, heq]
  exact hread

end

end StorageEngine

open StorageEngine

/-- The index is lost and rebuilt: if the extent that the shard is bound to is the last one of its
slot that the directory lists, every blob that was read is still read. -/
theorem index_loss_keeps_readable (crc32c : Bytes → UInt32) (steps : List DiskStep)
    {order : List ExtentId}
    (hlists : order.Perm
      ((run (DiskState.step crc32c) .empty steps).engine.files.toList.map Prod.fst))
    {shard : ShardId} {extent : ExtentId}
    (hbound : (run (DiskState.step crc32c) .empty steps).engine.index.getShardBinding shard
      = some extent)
    (hlast : (order.filter fun e => shardPrefix e.shardId = shardPrefix shard).getLast?
      = some extent)
    {blob : BlobId} {body : Bytes}
    (hread : (run (DiskState.step crc32c) .empty steps).engine.readShard shard blob
      = .ok (some body)) :
    ((run (DiskState.step crc32c) .empty steps).loseIndex crc32c order).readShard shard blob
      = .ok (some body) := by
  have hlogged : DiskState.LoggedState (run (DiskState.step crc32c) .empty steps) := by
    refine Along.invariant (G := fun _ _ => True) (fun s a hs _ => hs.step crc32c a)
      DiskState.loggedState_empty ?_
    exact along_of_forall (fun _ _ _ => trivial) _
  generalize run (DiskState.step crc32c) .empty steps = s at *
  obtain ⟨before, after, rfl, hbefore, hafter, hslots⟩ := split_of_getLast
    (hlists.nodup_iff.mpr s.engine.files.nodup_keys) hlast
  obtain ⟨f, entry, r, hfile, hget, hrec, hblob, hbody⟩ := readShard_eq_some hread hbound
  have hslot : shardPrefix extent.shardId = shardPrefix shard := by
    simpa using (List.mem_filter.mp (List.mem_of_getLast? hlast)).2
  obtain ⟨closed, hclosed⟩ : ∃ g : StorageEngine, g = ⟨.empty, s.engine.files, ∅⟩ := ⟨_, rfl⟩
  -- the files listed before it leave the extent alone
  have hbefore' := untouched_recoverAll crc32c hbefore closed
  have hfile' : (recoverAll crc32c closed before).files.get extent = some f := by
    rw [hbefore'.file_eq, hclosed]
    exact hfile
  have hmeta' : (recoverAll crc32c closed before).index.getExtentMeta extent = none := by
    rw [hbefore'.meta_eq, hclosed]
    rfl
  have hplan := recoverPlan_eq crc32c (hlogged.logged.shard extent f hfile) hfile' hmeta'
  -- nor do the files listed after it, which are of other slots
  obtain ⟨installed, hinstalled⟩ : ∃ g, g = (recoverAll crc32c closed before).performAll
    (recoverPlan crc32c (recoverAll crc32c closed before) extent) := ⟨_, rfl⟩
  have hafter' := untouched_recoverAll crc32c hafter installed
  have hrecovered : recoverAll crc32c closed (before ++ extent :: after)
      = recoverAll crc32c installed after := by
    rw [hinstalled, recoverAll, List.foldl_append]
    rfl
  have hbind : (recoverAll crc32c installed after).index.bindings.get (shardPrefix shard)
      = some extent := by
    rw [binding_recoverAll crc32c hslots, hinstalled, hplan]
    show ((recoverAll crc32c closed before).perform _).index.bindings.get _ = _
    rw [binding_perform, bindingAfter, if_pos hslot]
  obtain ⟨entry', hget', hrec'⟩ := hlogged.logged.readBlob_install crc32c
    (recoverAll crc32c closed before).index.blobs hfile hget hrec hblob
  have hentry : (recoverAll crc32c installed after).index.getBlob extent blob = some entry' := by
    rw [hafter'.blob_eq, hinstalled, hplan]
    show ((recoverAll crc32c closed before).index.write
      (DiskIndex.installExtent _ _ _)).blobs.get _ = _
    rw [DiskIndex.write_installExtent]
    exact hget'
  have hfile'' : (recoverAll crc32c installed after).files.get extent = some f := by
    rw [hafter'.file_eq, hinstalled, hplan]
    exact hfile'
  show StorageEngine.readShard { recoverAll crc32c ⟨.empty, s.engine.files, ∅⟩
    (before ++ extent :: after) with writers := _ } shard blob = _
  rw [← hclosed, hrecovered]
  unfold readShard DiskIndex.getShardBinding
  simp only [hbind, hfile'', readBlob, hentry, hrec', hblob, if_true, hbody]

/-- Two blobs, and a compaction that crashes when its destination is there and still empty. -/
def interruptedRun : List DiskStep :=
  [.operate (.createExtent 1 5) 3, .operate (.write ⟨1, 5⟩ 10 [1]) 2,
    .operate (.write ⟨1, 5⟩ 11 [2]) 2, .operate (.compact ⟨1, 5⟩ 6) 4, .crash false]

theorem index_loss_keeps_readable_demo :
    (([⟨1, 6⟩, ⟨1, 5⟩] : List ExtentId).filter fun e =>
        shardPrefix e.shardId = shardPrefix 1).getLast? = some ⟨1, 5⟩
      ∧ ((run (DiskState.step fun _ => 0) .empty interruptedRun).loseIndex (fun _ => 0)
        [⟨1, 6⟩, ⟨1, 5⟩]).readShard 1 11 = .ok (some [2]) := by
  have hlast : (([⟨1, 6⟩, ⟨1, 5⟩] : List ExtentId).filter fun e =>
      shardPrefix e.shardId = shardPrefix 1).getLast? = some ⟨1, 5⟩ := by decide
  refine ⟨hlast, ?_⟩
  exact index_loss_keeps_readable (fun _ => 0) interruptedRun (by decide +kernel)
    (by decide +kernel) hlast (by decide +kernel)

/-- The same disk with its files listed the other way round. -/
theorem last_listed_file_wins :
    (run (DiskState.step fun _ => 0) .empty interruptedRun).engine.readShard 1 11 = .ok (some [2])
      ∧ ((run (DiskState.step fun _ => 0) .empty interruptedRun).loseIndex (fun _ => 0)
        [⟨1, 5⟩, ⟨1, 6⟩]).readShard 1 11 = .ok none := by
  decide +kernel

end Epoch
