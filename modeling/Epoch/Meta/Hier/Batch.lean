import Epoch.Meta.Hier.Ops

/-!
# What a hierarchical batch writes

For each handler, when it succeeds, what it read and the batch it returns (`applyWrite_cases` and
so on), and the share of the building blocks in every column family.  Hierarchical keys are flat
keys over the routing key `parent_ino | name`, so the facts about captures and segments are those
of the shared modules.
-/

namespace Epoch

def FsRecord.file? : FsRecord → Option FileRecord
  | File f => some f
  | _ => none

/-- Whether the op concerns directories only. -/
def HierOp.isDirectory : HierOp → Bool
  | MkdirSentinel .. | MkdirLink .. | RmdirUnlink .. | RmdirSentinel .. => true
  | Write .. | Unlink .. | RenameSameDir .. => false

namespace Hier

/-! ## Keys -/

lemma fsKey_eq (b : BucketId) (i : UInt64) (n : Bytes) :
    fsKey b i n = flatKey .Fs b (hierRoutingKey i n) [] := hierKey_eq_flatKey _ _ _ _ _

lemma segPrefix_eq (b : BucketId) (i : UInt64) (n : Bytes) :
    segPrefix b i n = flatKey .MetaSeg b (hierRoutingKey i n) [] := hierKey_eq_flatKey _ _ _ _ _

lemma segKey_eq (b : BucketId) (i : UInt64) (n : Bytes) :
    segKey b i n = segmentKey b (hierRoutingKey i n) :=
  funext fun _ => hierKey_eq_flatKey _ _ _ _ _

lemma delqKey_eq (b : BucketId) (i : UInt64) (n : Bytes) (seq : UInt64) :
    delqKey b i n seq = Epoch.delqKey b (hierRoutingKey i n) seq :=
  funext fun _ => hierKey_eq_flatKey _ _ _ _ _

@[simp] lemma fsKey_inj {b b' : BucketId} {i i' : UInt64} {n n' : Bytes} :
    fsKey b i n = fsKey b' i' n' ↔ b = b' ∧ i = i' ∧ n = n' := by
  rw [fsKey_eq, fsKey_eq, flatKey_head_inj, hierRoutingKey_inj]

lemma oldSegments_eq (store : MetaStore) (b : BucketId) (i : UInt64) (n : Bytes) :
    oldSegments store b i n
      = scanPrefix store .MetaSeg (flatKey .MetaSeg b (hierRoutingKey i n) []) 1024 := by
  rw [oldSegments, segPrefix_eq]

variable {store : MetaStore} {b : BucketId} {i : UInt64} {n : Bytes} {seq : UInt64} {ts : Int64}

/-! ## Files -/

/-- The file record a stored value holds, if it is a file's. -/
def fileOf (o : Option MetaValue) : Option FileRecord := (o.bind MetaValue.fs?).bind FsRecord.file?

def fileAt (store : MetaStore) (b : BucketId) (i : UInt64) (n : Bytes) : Option FileRecord :=
  fileOf (store.get .Fs (fsKey b i n))

lemma fileAt_eq_some {f : FileRecord} :
    fileAt store b i n = some f ↔ store.get .Fs (fsKey b i n) = some (.Fs (.File f)) := by
  unfold fileAt
  cases store.get .Fs (fsKey b i n) with
  | none => simp [fileOf]
  | some v =>
    cases v with
    | Fs r => cases r <;> simp [fileOf, MetaValue.fs?, FsRecord.file?]
    | _ => simp [fileOf, MetaValue.fs?]

/-! ## Captures -/

/-- The segment entries a capture deletes. -/
def captureSegs (store : MetaStore) (b : BucketId) (i : UInt64) (n : Bytes) :
    List (Bytes × MetaValue) :=
  match store.get .Fs (fsKey b i n) with
  | none => []
  | some _ => oldSegments store b i n

/-- The slices a capture enqueues. -/
def capturedOld (store : MetaStore) (b : BucketId) (i : UInt64) (n : Bytes) : List Slice :=
  match store.get .Fs (fsKey b i n) with
  | none => []
  | some old => extract .Fs old ++ (oldSegments store b i n).flatMap fun e => extract .MetaSeg e.2

lemma on_captureOldFile (c : MetaCf) :
    KvStore.on c (captureOldFile store b i n seq ts).1
      = if c = .MetaSeg then (captureSegs store b i n).map fun e => (e.1, none)
        else if c = .Delq then
          (delqEntries (Epoch.delqKey b (hierRoutingKey i n) seq) ts 0
            (chunks SEGMENT_SLICES (capturedOld store b i n))).map fun e => (e.1, some e.2)
        else [] := by
  unfold captureOldFile captureSegs capturedOld
  cases store.get .Fs (fsKey b i n) with
  | none => simp [delqEntries]
  | some old =>
    simp only [KvStore.on_append, on_map_delete, on_enqueueDeleteSlices, delqKey_eq]
    cases c <;> simp

lemma on_packedPuts (c : MetaCf) (file : FileRecord) :
    KvStore.on c (packedPuts b i n file)
      = if c = .Fs then [(fsKey b i n, some (.Fs (.File (packFile file).1)))]
        else if c = .MetaSeg then segWrites b (hierRoutingKey i n) (packFile file).2
        else [] := by
  rw [packedPuts, KvStore.on_cons, on_segmentPuts, segKey_eq]
  cases c <;> simp [WriteOp.put]

lemma on_deleteSegments (c : MetaCf) :
    KvStore.on c (deleteSegments store b i n)
      = if c = .MetaSeg then (oldSegments store b i n).map fun e => (e.1, none) else [] := by
  rw [deleteSegments, on_map_delete]
  cases c <;> simp

/-! ## Sentinel bumps -/

/-- The sentinel with its child count moved by `delta`. -/
def bumped (sentinel : DirRecord) (delta : Int64) (ts : Int64) : DirRecord :=
  { sentinel with
    mtime := ts
    entryCount := match sentinel.entryCount with
      | .Exact count => .Exact (saturatingAddSigned count delta)
      | .Unknown => .Unknown }

/-- The writes of a bump: the parent's sentinel, if the engine holds one. -/
def bumpOps (store : MetaStore) (b : BucketId) (i : UInt64) (delta ts : Int64) : List StoreOp :=
  match store.get .Fs (fsKey b i SENTINEL_NAME) with
  | some (.Fs (.Sentinel sentinel)) =>
    [WriteOp.put .Fs (fsKey b i SENTINEL_NAME) (.Fs (.Sentinel (bumped sentinel delta ts)))]
  | _ => []

/-- `bump` is the bump of the parent's sentinel. -/
def IsBump (store : MetaStore) (b : BucketId) (i : UInt64) (delta ts : Int64)
    (bump : List StoreOp) : Prop :=
  bump = bumpOps store b i delta ts

variable {out : ApplyOutcome} {delta : Int64} {bump : List StoreOp} {ino ino' : InoAllocator}

/-- A bump writes nothing, or the parent's sentinel that was there. -/
lemma IsBump.cases (h : IsBump store b i delta ts bump) :
    bump = [] ∨ ∃ sentinel,
      store.get .Fs (fsKey b i SENTINEL_NAME) = some (.Fs (.Sentinel sentinel))
        ∧ bump = [WriteOp.put .Fs (fsKey b i SENTINEL_NAME)
            (.Fs (.Sentinel (bumped sentinel delta ts)))] := by
  rw [IsBump, bumpOps] at h
  split at h
  · rename_i sentinel hg
    exact Or.inr ⟨sentinel, hg, h⟩
  · exact Or.inl h

lemma bumpSentinelChildDelta_ok (h : bumpSentinelChildDelta store b i delta ts = .ok bump) :
    IsBump store b i delta ts bump := by
  unfold bumpSentinelChildDelta at h
  unfold IsBump bumpOps
  cases hg : store.get .Fs (fsKey b i SENTINEL_NAME) with
  | none =>
    simp only [hg, Except.ok.injEq] at h
    exact h.symm
  | some v =>
    cases v with
    | Fs r =>
      cases r <;>
        (simp only [hg, decode, MetaValue.fs?, Except.ok.injEq] at h; exact h.symm)
    | _ => simp [hg, decode, MetaValue.fs?] at h

lemma IsBump.on_eq_nil (h : IsBump store b i delta ts bump) {c : MetaCf} (hc : c ≠ .Fs) :
    KvStore.on c bump = [] := by
  rcases h.cases with rfl | ⟨s, -, rfl⟩
  · rfl
  · simp [WriteOp.put, Ne.symm hc]

/-- Only a stored sentinel is bumped. -/
lemma IsBump.sentinel (hb : IsBump store b i delta ts bump) (hne : bump ≠ []) :
    ∃ d, store.get .Fs (fsKey b i SENTINEL_NAME) = some (.Fs (.Sentinel d)) := by
  rcases hb.cases with rfl | ⟨d, hd, -⟩
  · exact absurd rfl hne
  · exact ⟨d, hd⟩

/-- Every value the batch stores in `fs` is a record. -/
def WritesRecords (ops : List StoreOp) : Prop :=
  ∀ key v, (key, some v) ∈ KvStore.on .Fs ops → ∃ r, v = MetaValue.Fs r

lemma IsBump.writesRecords (hb : IsBump store b i delta ts bump) : WritesRecords bump := by
  intro key v hmem
  rcases hb.cases with rfl | ⟨d, -, rfl⟩
  · simp at hmem
  · simp only [KvStore.on_cons, WriteOp.put, if_true, KvStore.on_nil, List.append_nil,
      List.mem_singleton, Prod.mk.injEq, Option.some.injEq] at hmem
    exact ⟨_, hmem.2⟩

/-! ## Reading records -/

lemma readRecord_eq_none (h : readRecord store b i n = .ok none) :
    store.get .Fs (fsKey b i n) = none := by
  unfold readRecord at h
  cases hg : store.get .Fs (fsKey b i n) with
  | none => rfl
  | some v => cases v <;> simp [hg, decode, MetaValue.fs?, Except.map] at h

lemma readRecord_eq_some {r : FsRecord} (h : readRecord store b i n = .ok (some r)) :
    store.get .Fs (fsKey b i n) = some (.Fs r) := by
  unfold readRecord at h
  cases hg : store.get .Fs (fsKey b i n) with
  | none => simp [hg] at h
  | some v =>
    cases v with
    | Fs r' =>
      simp only [hg, decode, MetaValue.fs?, Except.map, Except.ok.injEq,
        Option.some.injEq] at h
      rw [h]
    | _ => simp [hg, decode, MetaValue.fs?, Except.map] at h

lemma map_eq_ok {ε α β : Type} {x : Except ε α} {f : α → β} {y : β}
    (h : x.map f = .ok y) : ∃ a, x = .ok a ∧ f a = y := by
  cases x with
  | error e => cases h
  | ok a => exact ⟨a, rfl, by simpa [Except.map] using h⟩

/-- What a handler that leaves the allocator alone returned. -/
lemma ok_of_map {ε α β : Type} {x : Except ε α} {a : α} {b b' : β}
    (h : x.map (fun a => (a, b)) = .ok (a, b')) : x = .ok a ∧ b = b' := by
  obtain ⟨a', hx, heq⟩ := map_eq_ok h
  rw [hx]
  exact ⟨congrArg Except.ok (Prod.mk.inj heq).1, (Prod.mk.inj heq).2⟩

/-! ## Handlers -/

/-- The delta of writing `file` over the record at `n`. -/
def writeDelta (store : MetaStore) (b : BucketId) (i : UInt64) (n : Bytes) (seq : UInt64)
    (ts : Int64) (file : FileRecord) : GuardDelta :=
  let old := (captureOldFile store b i n seq ts).2
  ⟨(packFile file).1.content.inlineAccount.1.toInt64 - old.1.toInt64,
    (packFile file).1.content.inlineAccount.2.toInt64 - old.2.1.toInt64,
    file.size.toInt64 - old.2.2.toInt64⟩

/-- The delta of giving up the record at `n`. -/
def dropDelta (store : MetaStore) (b : BucketId) (i : UInt64) (n : Bytes) (seq : UInt64)
    (ts : Int64) : GuardDelta :=
  let old := (captureOldFile store b i n seq ts).2
  ⟨-old.1.toInt64, -old.2.1.toInt64, -old.2.2.toInt64⟩

lemma writeFile_ok {file : FileRecord} {isCreate : Bool}
    (h : writeFile store b i n file isCreate seq ts = .ok out) :
    ∃ bump, IsBump store b i (if isCreate then 1 else 0) ts bump
      ∧ (out.response = .None ∧ out.delta = writeDelta store b i n seq ts file)
      ∧ out.ops = (captureOldFile store b i n seq ts).1 ++ packedPuts b i n file ++ bump := by
  unfold writeFile at h
  cases hb : bumpSentinelChildDelta store b i (if isCreate then 1 else 0) ts with
  | error e => simp [hb] at h
  | ok bump =>
    simp only [hb, Except.ok.injEq] at h
    exact ⟨bump, bumpSentinelChildDelta_ok hb, ⟨by rw [← h], by rw [← h]; rfl⟩, by rw [← h]⟩

/-- **What a Write does**: it is rejected, or it replaces the file at its name, under the existing
file's inode or a freshly minted one. -/
theorem applyWrite_cases {size : UInt64} {etag : BitVec 128} {content : ContentHead}
    {http : HttpMeta}
    (h : applyWrite store b i n size etag content http ts seq ino = .ok (out, ino')) :
    (∃ reason, out = rejected reason ∧ ino' = ino)
      ∨ ∃ fileIno delta bump, n ≠ []
        ∧ ((∃ f, store.get .Fs (fsKey b i n) = some (.Fs (.File f)) ∧ fileIno = f.ino ∧ ino' = ino
            ∧ delta = 0)
          ∨ store.get .Fs (fsKey b i n) = none ∧ ino.mint = .ok (fileIno, ino') ∧ delta = 1)
        ∧ IsBump store b i delta ts bump
        ∧ (out.response = .None ∧ out.delta
          = writeDelta store b i n seq ts ⟨fileIno, size, etag, ts, content, 0, http⟩)
        ∧ out.ops = (captureOldFile store b i n seq ts).1
            ++ packedPuts b i n ⟨fileIno, size, etag, ts, content, 0, http⟩ ++ bump := by
  unfold applyWrite at h
  by_cases hn : n = []
  · simp only [hn, if_true, Except.ok.injEq, Prod.mk.injEq] at h
    exact Or.inl ⟨_, h.1.symm, h.2.symm⟩
  · simp only [if_neg hn] at h
    cases hr : readRecord store b i n with
    | error e => simp [hr] at h
    | ok r =>
      rcases r with _ | (f | d | s)
      · simp only [hr] at h
        cases hm : ino.mint with
        | error e => simp [hm] at h
        | ok m =>
          obtain ⟨fileIno, ino''⟩ := m
          simp only [hm] at h
          obtain ⟨ho, rfl⟩ := ok_of_map h
          obtain ⟨bump, hb, hresp, hops⟩ := writeFile_ok ho
          exact Or.inr ⟨fileIno, _, bump, hn, Or.inr ⟨readRecord_eq_none hr, rfl, rfl⟩, hb, hresp,
            hops⟩
      · simp only [hr] at h
        obtain ⟨ho, rfl⟩ := ok_of_map h
        obtain ⟨bump, hb, hresp, hops⟩ := writeFile_ok ho
        exact Or.inr ⟨f.ino, _, bump, hn, Or.inl ⟨f, readRecord_eq_some hr, rfl, rfl, rfl⟩, hb, hresp,
          hops⟩
      · simp only [hr, Except.ok.injEq, Prod.mk.injEq] at h
        exact Or.inl ⟨_, h.1.symm, h.2.symm⟩
      · simp only [hr, Except.ok.injEq, Prod.mk.injEq] at h
        exact Or.inl ⟨_, h.1.symm, h.2.symm⟩

/-- **What an Unlink does**: it is rejected, finds nothing, or removes the file. -/
theorem applyUnlink_cases (h : applyUnlink store b i n seq ts = .ok out) :
    (∃ reason, out = rejected reason)
      ∨ (store.get .Fs (fsKey b i n) = none ∧ out = .noDelta [] .None)
      ∨ ∃ f bump, store.get .Fs (fsKey b i n) = some (.Fs (.File f))
        ∧ IsBump store b i (-1) ts bump
        ∧ (out.response = .None ∧ out.delta = dropDelta store b i n seq ts)
        ∧ out.ops = (captureOldFile store b i n seq ts).1
            ++ WriteOp.delete .Fs (fsKey b i n) :: bump := by
  unfold applyUnlink at h
  cases hr : readRecord store b i n with
  | error e => simp [hr] at h
  | ok r =>
    rcases r with _ | (f | d | s)
    · simp only [hr, Except.ok.injEq] at h
      exact Or.inr (Or.inl ⟨readRecord_eq_none hr, h.symm⟩)
    · simp only [hr] at h
      cases hb : bumpSentinelChildDelta store b i (-1) ts with
      | error e => simp [hb] at h
      | ok bump =>
        simp only [hb, Except.ok.injEq] at h
        exact Or.inr (Or.inr ⟨f, bump, readRecord_eq_some hr, bumpSentinelChildDelta_ok hb,
          ⟨by rw [← h], by rw [← h]; rfl⟩, by rw [← h]⟩)
    · simp only [hr, Except.ok.injEq] at h
      exact Or.inl ⟨_, h.symm⟩
    · simp only [hr, Except.ok.injEq] at h
      exact Or.inl ⟨_, h.symm⟩

lemma renameFile_ok {source target : Bytes} {f : FileRecord} {destExisted : Bool}
    (h : renameFile store b i source target f destExisted seq ts = .ok out) :
    ∃ bump, IsBump store b i (if destExisted then -1 else 0) ts bump
      ∧ (out.response = .None ∧ out.delta = dropDelta store b i target seq ts)
      ∧ out.ops = (captureOldFile store b i target seq ts).1
          ++ packedPuts b i target { f with mtime := ts }
          ++ WriteOp.delete .Fs (fsKey b i source) :: deleteSegments store b i source ++ bump := by
  unfold renameFile at h
  cases hb : bumpSentinelChildDelta store b i (if destExisted then -1 else 0) ts with
  | error e => simp [hb] at h
  | ok bump =>
    simp only [hb, Except.ok.injEq] at h
    exact ⟨bump, bumpSentinelChildDelta_ok hb, ⟨by rw [← h], by rw [← h]; rfl⟩, by rw [← h]⟩

/-- **What a rename does**: it is rejected, does nothing when both names agree, or moves what the
source's head record holds. -/
theorem applyRenameSameDir_cases {source target : Bytes}
    (h : applyRenameSameDir store b i source target seq ts = .ok out) :
    (∃ reason, out = rejected reason)
      ∨ (source = target ∧ out = .noDelta [] .None)
      ∨ ∃ f delta bump, source ≠ target
        ∧ store.get .Fs (fsKey b i source) = some (.Fs (.File f))
        ∧ (store.get .Fs (fsKey b i target) = none
          ∨ ∃ f', store.get .Fs (fsKey b i target) = some (.Fs (.File f')))
        ∧ delta = (if store.get .Fs (fsKey b i target) = none then 0 else -1)
        ∧ IsBump store b i delta ts bump
        ∧ (out.response = .None ∧ out.delta = dropDelta store b i target seq ts)
        ∧ out.ops = (captureOldFile store b i target seq ts).1
            ++ packedPuts b i target { f with mtime := ts }
            ++ WriteOp.delete .Fs (fsKey b i source) :: deleteSegments store b i source ++ bump := by
  unfold applyRenameSameDir at h
  by_cases hst : source = target
  · simp only [if_pos hst, Except.ok.injEq] at h
    exact Or.inr (Or.inl ⟨hst, h.symm⟩)
  · simp only [if_neg hst] at h
    cases hr : readRecord store b i source with
    | error e => simp [hr] at h
    | ok r =>
      rcases r with _ | (f | d | s)
      · simp only [hr, Except.ok.injEq] at h
        exact Or.inl ⟨_, h.symm⟩
      · cases hd : readRecord store b i target with
        | error e => simp [hr, hd] at h
        | ok dest =>
          rcases dest with _ | (f' | d | s)
          · simp only [hr, hd] at h
            obtain ⟨bump, hb, hresp, hops⟩ := renameFile_ok h
            exact Or.inr (Or.inr ⟨f, _, bump, hst, readRecord_eq_some hr,
              Or.inl (readRecord_eq_none hd), by simp [readRecord_eq_none hd], hb, hresp, hops⟩)
          · simp only [hr, hd] at h
            obtain ⟨bump, hb, hresp, hops⟩ := renameFile_ok h
            exact Or.inr (Or.inr ⟨f, _, bump, hst, readRecord_eq_some hr,
              Or.inr ⟨f', readRecord_eq_some hd⟩, by simp [readRecord_eq_some hd], hb, hresp,
              hops⟩)
          · simp only [hr, hd, Except.ok.injEq] at h
            exact Or.inl ⟨_, h.symm⟩
          · simp only [hr, hd, Except.ok.injEq] at h
            exact Or.inl ⟨_, h.symm⟩
      · simp only [hr, Except.ok.injEq] at h
        exact Or.inl ⟨_, h.symm⟩
      · simp only [hr, Except.ok.injEq] at h
        exact Or.inl ⟨_, h.symm⟩

/-- **What a MkdirSentinel does**: it mints an inode and writes its sentinel unless the key is
taken. -/
theorem applyMkdirSentinel_cases (h : applyMkdirSentinel store b i n ts ino = .ok (out, ino')) :
    ∃ child, ino.mint = .ok (child, ino') ∧ (out.response = .MintedIno child ∧ out.delta = .zero)
      ∧ (out.ops = [] ∧ store.get .Fs (fsKey b child SENTINEL_NAME) ≠ none
        ∨ store.get .Fs (fsKey b child SENTINEL_NAME) = none
          ∧ out.ops = [WriteOp.put .Fs (fsKey b child SENTINEL_NAME)
              (.Fs (.Sentinel ⟨child, ts, .Exact 0, some (i, n), ts⟩))]) := by
  unfold applyMkdirSentinel at h
  cases hm : ino.mint with
  | error e => simp [hm] at h
  | ok m =>
    obtain ⟨child, ino''⟩ := m
    simp only [hm, Except.ok.injEq, Prod.mk.injEq] at h
    obtain ⟨rfl, rfl⟩ := h
    refine ⟨child, rfl, ⟨rfl, rfl⟩, ?_⟩
    cases hg : store.get .Fs (fsKey b child SENTINEL_NAME) with
    | none => exact Or.inr ⟨rfl, by simp [ApplyOutcome.noDelta]⟩
    | some v => exact Or.inl ⟨by simp [ApplyOutcome.noDelta], by simp⟩

/-- **What a MkdirLink does**: it is rejected, finds the link in place, or writes it over nothing
(or over a sentinel). -/
theorem applyMkdirLink_cases {child : UInt64} (h : applyMkdirLink store b i n child ts = .ok out) :
    (∃ reason, out = rejected reason)
      ∨ out = .noDelta [] .None
      ∨ ∃ bump, n ≠ []
        ∧ (store.get .Fs (fsKey b i n) = none
          ∨ ∃ s, store.get .Fs (fsKey b i n) = some (.Fs (.Sentinel s)))
        ∧ IsBump store b i 1 ts bump ∧ (out.response = .None ∧ out.delta = .zero)
        ∧ out.ops = WriteOp.put .Fs (fsKey b i n) (.Fs (.Dir ⟨child⟩)) :: bump := by
  unfold applyMkdirLink at h
  by_cases hn : n = []
  · simp only [if_pos hn, Except.ok.injEq] at h
    exact Or.inl ⟨_, h.symm⟩
  · simp only [if_neg hn] at h
    cases hr : readRecord store b i n with
    | error e => simp [hr] at h
    | ok r =>
      rcases r with _ | (f | d | s)
      · cases hb : bumpSentinelChildDelta store b i 1 ts with
        | error e => simp [hr, hb] at h
        | ok bump =>
          simp only [hr, hb, Except.ok.injEq] at h
          exact Or.inr (Or.inr ⟨bump, hn, Or.inl (readRecord_eq_none hr),
            bumpSentinelChildDelta_ok hb, ⟨by rw [← h]; rfl, by rw [← h]; rfl⟩,
            by rw [← h]; rfl⟩)
      · simp only [hr, Except.ok.injEq] at h
        exact Or.inl ⟨_, h.symm⟩
      · simp only [hr] at h
        split_ifs at h with hd
        · simp only [Except.ok.injEq] at h
          exact Or.inr (Or.inl h.symm)
        · simp only [Except.ok.injEq] at h
          exact Or.inl ⟨_, h.symm⟩
      · cases hb : bumpSentinelChildDelta store b i 1 ts with
        | error e => simp [hr, hb] at h
        | ok bump =>
          simp only [hr, hb, Except.ok.injEq] at h
          exact Or.inr (Or.inr ⟨bump, hn, Or.inr ⟨s, readRecord_eq_some hr⟩,
            bumpSentinelChildDelta_ok hb, ⟨by rw [← h]; rfl, by rw [← h]; rfl⟩,
            by rw [← h]; rfl⟩)

/-- **What a RmdirUnlink does**: it is rejected, finds nothing, or removes a directory entry. -/
theorem applyRmdirUnlink_cases (h : applyRmdirUnlink store b i n ts = .ok out) :
    (∃ reason, out = rejected reason)
      ∨ out = .noDelta [] .None
      ∨ ∃ d bump, store.get .Fs (fsKey b i n) = some (.Fs (.Dir d))
        ∧ IsBump store b i (-1) ts bump ∧ (out.response = .None ∧ out.delta = .zero)
        ∧ out.ops = WriteOp.delete .Fs (fsKey b i n) :: bump := by
  unfold applyRmdirUnlink at h
  cases hr : readRecord store b i n with
  | error e => simp [hr] at h
  | ok r =>
    rcases r with _ | (f | d | s)
    · simp only [hr, Except.ok.injEq] at h
      exact Or.inr (Or.inl h.symm)
    · simp only [hr, Except.ok.injEq] at h
      exact Or.inl ⟨_, h.symm⟩
    · cases hb : bumpSentinelChildDelta store b i (-1) ts with
      | error e => simp [hr, hb] at h
      | ok bump =>
        simp only [hr, hb, Except.ok.injEq] at h
        exact Or.inr (Or.inr ⟨d, bump, readRecord_eq_some hr, bumpSentinelChildDelta_ok hb,
          ⟨by rw [← h]; rfl, by rw [← h]; rfl⟩, by rw [← h]; rfl⟩)
    · simp only [hr, Except.ok.injEq] at h
      exact Or.inr (Or.inl h.symm)

/-- **What a RmdirSentinel does**: nothing, a rejection, or it removes whatever is at the empty
name. -/
theorem applyRmdirSentinel_cases (h : apply store (.RmdirSentinel b i ts) seq ino = .ok (out, ino')) :
    ino = ino' ∧ ((∃ reason, out = rejected reason) ∨ out = .noDelta [] .None
      ∨ store.get .Fs (fsKey b i SENTINEL_NAME) ≠ none ∧ directoryHasChildren store b i = false
        ∧ out = .noDelta [WriteOp.delete .Fs (fsKey b i SENTINEL_NAME)] .None) := by
  obtain ⟨rfl, rfl⟩ : applyRmdirSentinel store b i = out ∧ ino = ino' := by simpa [apply] using h
  unfold applyRmdirSentinel
  cases store.get .Fs (fsKey b i SENTINEL_NAME) with
  | none => exact ⟨rfl, Or.inr (Or.inl rfl)⟩
  | some v =>
    by_cases hc : directoryHasChildren store b i = true
    · exact ⟨rfl, Or.inl ⟨"directory not empty", by simp [hc]⟩⟩
    · exact ⟨rfl, Or.inr (Or.inr ⟨by simp, by simpa using hc, by simp [hc]⟩)⟩

/-! ## Directory ops -/

/-- A batch that concerns no file: it writes nothing, or one record that is no file over something
that is no file, and bumps a sentinel. -/
inductive IsQuiet (store : MetaStore) (ops : List StoreOp) : Prop
  | nothing (hops : ops = [])
  | single (key : Bytes) (o : Option MetaValue) (hops : ops = [⟨.Fs, key, o⟩])
      (hrec : ∀ v, o = some v → ∃ r, v = .Fs r) (hnew : fileOf o = none)
      (hold : fileOf (store.get .Fs key) = none)
  | write {b : BucketId} {i : UInt64} {delta ts : Int64} {bump : List StoreOp} (key : Bytes)
      (o : Option MetaValue) (hb : IsBump store b i delta ts bump) (hops : ops = ⟨.Fs, key, o⟩ :: bump)
      (hrec : ∀ v, o = some v → ∃ r, v = .Fs r) (hnew : fileOf o = none)
      (hold : fileOf (store.get .Fs key) = none)
      (hkey : bump ≠ [] → key ≠ fsKey b i SENTINEL_NAME)

/-- **Directory ops are quiet**, if no file sits at the empty name of a directory being removed. -/
theorem apply_isQuiet {op : HierOp} (hdir : op.isDirectory = true)
    (hrm : ∀ b i ts, op = .RmdirSentinel b i ts → fileAt store b i SENTINEL_NAME = none)
    (h : apply store op seq ino = .ok (out, ino')) : IsQuiet store out.ops := by
  cases op with
  | Write b i n size etag content http ts => cases hdir
  | Unlink b i n ts => cases hdir
  | RenameSameDir b i source target ts => cases hdir
  | MkdirSentinel b i n ts =>
    obtain ⟨child, -, -, ⟨hops, -⟩ | ⟨hnone, hops⟩⟩ := applyMkdirSentinel_cases h
    · exact .nothing hops
    · refine .single _ _ hops ?_ rfl ?_
      · rintro v ⟨⟩
        exact ⟨_, rfl⟩
      · rw [hnone]; rfl
  | MkdirLink b i n child ts =>
    obtain ⟨ho, rfl⟩ := ok_of_map h
    rcases applyMkdirLink_cases ho with ⟨reason, rfl⟩ | rfl | ⟨bump, hn, hold, hb, -, hops⟩
    · exact .nothing rfl
    · exact .nothing rfl
    · refine .write _ _ hb hops ?_ rfl ?_ fun _ hk => hn (fsKey_inj.mp hk).2.2
      · rintro v ⟨⟩
        exact ⟨_, rfl⟩
      · rcases hold with hold | ⟨d, hold⟩ <;> rw [hold] <;> rfl
  | RmdirUnlink b i n ts =>
    obtain ⟨ho, rfl⟩ := ok_of_map h
    rcases applyRmdirUnlink_cases ho with ⟨reason, rfl⟩ | rfl | ⟨d, bump, hold, hb, -, hops⟩
    · exact .nothing rfl
    · exact .nothing rfl
    · refine .write _ _ hb hops (by rintro v ⟨⟩) rfl ?_ ?_
      · rw [hold]; rfl
      · intro hne hk
        obtain ⟨d', hd'⟩ := hb.sentinel hne
        rw [← hk, hold] at hd'
        simp at hd'
  | RmdirSentinel b i ts =>
    obtain ⟨-, ⟨reason, rfl⟩ | rfl | ⟨-, -, rfl⟩⟩ := applyRmdirSentinel_cases h
    · exact .nothing rfl
    · exact .nothing rfl
    · exact .single _ _ rfl (by rintro v ⟨⟩) rfl (hrm b i ts rfl)

/-! ## The files a batch leaves -/

section Files

variable {ops bump : List StoreOp} {delta : Int64}

lemma fsKey_ne {b' : BucketId} {i' : UInt64} {n' : Bytes} (h : (b', i', n') ≠ (b, i, n)) :
    fsKey b i n ≠ fsKey b' i' n' := by
  rw [Ne, fsKey_inj]
  rintro ⟨rfl, rfl, rfl⟩
  exact h rfl

/-- A bumped sentinel is neither missing nor a file. -/
lemma IsBump.key_ne {key : Bytes} (hb : IsBump store b i delta ts bump) (hne : bump ≠ [])
    (hold : store.get .Fs key = none ∨ ∃ f, store.get .Fs key = some (.Fs (.File f))) :
    fsKey b i SENTINEL_NAME ≠ key := by
  rintro rfl
  obtain ⟨d, hd⟩ := hb.sentinel hne
  rcases hold with hold | ⟨f, hold⟩ <;> simp [hold] at hd

/-- A bump after writes of other keys moves no file. -/
lemma fileOf_bump (ws : List (Bytes × Option MetaValue))
    (hb : IsBump store b i delta ts bump)
    (h : KvStore.on .Fs ops = ws ++ KvStore.on .Fs bump)
    (hws : bump ≠ [] → fsKey b i SENTINEL_NAME ∉ ws.map Prod.fst) (key : Bytes) :
    fileOf ((store.applyBatch ops .Fs).get key) = fileOf (((store .Fs).writeAll ws).get key) := by
  rw [KvStore.applyBatch_cf, h, OrdMap.writeAll_append]
  rcases hb.cases with rfl | ⟨d, hd, rfl⟩
  · rfl
  · simp only [KvStore.on_cons, KvStore.on_nil, WriteOp.put, if_true, List.append_nil,
      OrdMap.writeAll_cons, OrdMap.writeAll_nil, OrdMap.get_write]
    split_ifs with hk
    · rw [← hk, OrdMap.get_writeAll_of_notMem (hws (by simp))]
      have hget : (store .Fs).get (fsKey b i SENTINEL_NAME) = some (.Fs (.Sentinel d)) := hd
      rw [hget]
      rfl
    · rfl

/-- A batch that captures the file at a name, if one is there, stores `o` and bumps the sentinel. -/
structure Replaces (store : MetaStore) (b : BucketId) (i : UInt64) (n : Bytes)
    (o : Option FileRecord) (seq : UInt64) (delta ts : Int64) (ops : List StoreOp) : Prop where
  old : store.get .Fs (fsKey b i n) = none
    ∨ ∃ f, store.get .Fs (fsKey b i n) = some (.Fs (.File f))
  fs : KvStore.on .Fs ops = (fsKey b i n, o.map fun f => .Fs (.File (packFile f).1))
    :: KvStore.on .Fs (bumpOps store b i delta ts)
  segs : KvStore.on .MetaSeg ops = ((captureSegs store b i n).map fun e => (e.1, none))
    ++ segWrites b (hierRoutingKey i n) (o.elim [] fun f => (packFile f).2)
  delq : KvStore.on .Delq ops = (delqEntries (Epoch.delqKey b (hierRoutingKey i n) seq) ts 0
    (chunks SEGMENT_SLICES (capturedOld store b i n))).map fun e => (e.1, some e.2)

/-- A batch that captures the file at `target`, if one is there, moves the record of `source` to it,
deletes what lies under `source` and bumps the sentinel. -/
structure Moves (store : MetaStore) (b : BucketId) (i : UInt64) (source target : Bytes)
    (f : FileRecord) (seq : UInt64) (delta ts : Int64) (ops : List StoreOp) : Prop where
  ne : source ≠ target
  moved : store.get .Fs (fsKey b i source) = some (.Fs (.File f))
  old : store.get .Fs (fsKey b i target) = none
    ∨ ∃ f', store.get .Fs (fsKey b i target) = some (.Fs (.File f'))
  fs : KvStore.on .Fs ops
    = (fsKey b i target, some (.Fs (.File (packFile { f with mtime := ts }).1)))
      :: (fsKey b i source, none) :: KvStore.on .Fs (bumpOps store b i delta ts)
  segs : KvStore.on .MetaSeg ops = ((captureSegs store b i target).map fun e => (e.1, none))
    ++ segWrites b (hierRoutingKey i target) (packFile { f with mtime := ts }).2
    ++ segDeletes store b (hierRoutingKey i source)
  delq : KvStore.on .Delq ops = (delqEntries (Epoch.delqKey b (hierRoutingKey i target) seq) ts 0
    (chunks SEGMENT_SLICES (capturedOld store b i target))).map fun e => (e.1, some e.2)

variable {o : Option FileRecord} {f : FileRecord} {source target : Bytes}

lemma replaces_write (seq : UInt64) (hold : store.get .Fs (fsKey b i n) = none
      ∨ ∃ f, store.get .Fs (fsKey b i n) = some (.Fs (.File f)))
    (hb : IsBump store b i delta ts bump)
    (hops : ops = (captureOldFile store b i n seq ts).1 ++ packedPuts b i n f ++ bump) :
    Replaces store b i n (some f) seq delta ts ops := by
  have hnil := fun c => @IsBump.on_eq_nil store b i ts delta bump hb c
  rw [hops]
  obtain rfl := hb
  constructor <;> simp [hold, on_captureOldFile, on_packedPuts, hnil]

lemma replaces_unlink (seq : UInt64) (hf : store.get .Fs (fsKey b i n) = some (.Fs (.File f)))
    (hb : IsBump store b i delta ts bump)
    (hops : ops = (captureOldFile store b i n seq ts).1
      ++ WriteOp.delete .Fs (fsKey b i n) :: bump) :
    Replaces store b i n none seq delta ts ops := by
  have hnil := fun c => @IsBump.on_eq_nil store b i ts delta bump hb c
  rw [hops]
  obtain rfl := hb
  constructor <;> simp [hf, on_captureOldFile, WriteOp.delete, hnil]

lemma moves_rename (seq : UInt64) (hst : source ≠ target)
    (hf : store.get .Fs (fsKey b i source) = some (.Fs (.File f)))
    (hold : store.get .Fs (fsKey b i target) = none
      ∨ ∃ f', store.get .Fs (fsKey b i target) = some (.Fs (.File f')))
    (hb : IsBump store b i delta ts bump)
    (hops : ops = (captureOldFile store b i target seq ts).1
      ++ packedPuts b i target { f with mtime := ts }
      ++ WriteOp.delete .Fs (fsKey b i source) :: deleteSegments store b i source ++ bump) :
    Moves store b i source target f seq delta ts ops := by
  have hnil := fun c => @IsBump.on_eq_nil store b i ts delta bump hb c
  rw [hops]
  obtain rfl := hb
  constructor <;> simp [hst, hf, hold, on_captureOldFile, on_packedPuts, on_deleteSegments,
    oldSegments_eq, WriteOp.delete, hnil]

/-- The sentinel that a replacing batch bumps is not the record it replaces. -/
lemma Replaces.sentinel_notMem (h : Replaces store b i n o seq delta ts ops)
    (hne : bumpOps store b i delta ts ≠ []) (v : Option MetaValue) :
    fsKey b i SENTINEL_NAME ∉ [(fsKey b i n, v)].map Prod.fst := by
  simpa using IsBump.key_ne rfl hne h.old

lemma Moves.sentinel_notMem (h : Moves store b i source target f seq delta ts ops)
    (hne : bumpOps store b i delta ts ≠ []) (v v' : Option MetaValue) :
    fsKey b i SENTINEL_NAME ∉ [(fsKey b i target, v), (fsKey b i source, v')].map Prod.fst := by
  have htarget := IsBump.key_ne rfl hne h.old
  have hsource := IsBump.key_ne rfl hne (Or.inr ⟨f, h.moved⟩)
  simp [htarget, hsource, -fsKey_inj]

lemma Replaces.fileAt_eq (h : Replaces store b i n o seq delta ts ops) (b' : BucketId)
    (i' : UInt64) (n' : Bytes) :
    fileAt (store.applyBatch ops) b' i' n'
      = if (b', i', n') = (b, i, n) then o.map fun f => (packFile f).1 else fileAt store b' i' n' := by
  rw [fileAt, MetaStore.get, fileOf_bump [_] rfl h.fs fun hne => h.sentinel_notMem hne _,
    OrdMap.writeAll_cons, OrdMap.writeAll_nil, OrdMap.get_write]
  by_cases hbk : (b', i', n') = (b, i, n)
  · obtain ⟨rfl, rfl, rfl⟩ : b' = b ∧ i' = i ∧ n' = n := by simpa using hbk
    rw [if_pos rfl, if_pos rfl]
    cases o <;> rfl
  · rw [if_neg (fsKey_ne hbk), if_neg hbk]
    rfl

lemma Moves.fileAt_eq (h : Moves store b i source target f seq delta ts ops) (b' : BucketId)
    (i' : UInt64) (n' : Bytes) :
    fileAt (store.applyBatch ops) b' i' n'
      = if (b', i', n') = (b, i, source) then none
        else if (b', i', n') = (b, i, target) then some (packFile { f with mtime := ts }).1
        else fileAt store b' i' n' := by
  rw [fileAt, MetaStore.get, fileOf_bump [_, _] rfl h.fs fun hne => h.sentinel_notMem hne _ _,
    OrdMap.writeAll_cons, OrdMap.writeAll_cons, OrdMap.writeAll_nil, OrdMap.get_write,
    OrdMap.get_write]
  by_cases hs : (b', i', n') = (b, i, source)
  · obtain ⟨rfl, rfl, rfl⟩ : b' = b ∧ i' = i ∧ n' = source := by simpa using hs
    simp [fileOf]
  · rw [if_neg (fsKey_ne hs), if_neg hs]
    by_cases ht : (b', i', n') = (b, i, target)
    · obtain ⟨rfl, rfl, rfl⟩ : b' = b ∧ i' = i ∧ n' = target := by simpa using ht
      rw [if_pos rfl, if_pos rfl]
      rfl
    · rw [if_neg (fsKey_ne ht), if_neg ht]
      rfl

lemma IsQuiet.fileOf_eq (hq : IsQuiet store ops) (key : Bytes) :
    fileOf ((store.applyBatch ops .Fs).get key) = fileOf ((store .Fs).get key) := by
  cases hq with
  | nothing hops => rw [hops]; rfl
  | single key' o hops hrec hnew hold =>
    subst hops
    rw [KvStore.applyBatch_cf]
    simp only [KvStore.on_cons, KvStore.on_nil, if_true, List.append_nil, OrdMap.writeAll_cons,
      OrdMap.writeAll_nil, OrdMap.get_write]
    split_ifs with hk
    · rw [hnew, ← hold, hk]
      rfl
    · rfl
  | write key' o hb hops hrec hnew hold hkey =>
    subst hops
    rw [fileOf_bump [(key', o)] hb rfl (fun hne => by simpa using (hkey hne).symm),
      OrdMap.writeAll_cons, OrdMap.writeAll_nil, OrdMap.get_write]
    split_ifs with hk
    · simp only at hk
      rw [hnew, ← hold, hk]
      rfl
    · rfl

lemma IsQuiet.fileAt_eq (hq : IsQuiet store ops) (b : BucketId) (i : UInt64) (n : Bytes) :
    fileAt (store.applyBatch ops) b i n = fileAt store b i n :=
  hq.fileOf_eq (fsKey b i n)

lemma IsQuiet.on_eq_nil (hq : IsQuiet store ops) {c : MetaCf} (hc : c ≠ .Fs) :
    KvStore.on c ops = [] := by
  cases hq with
  | nothing hops => rw [hops]; rfl
  | single key o hops hrec hnew hold => simp [hops, Ne.symm hc]
  | write key o hb hops hrec hnew hold hkey => simp [hops, Ne.symm hc, hb.on_eq_nil hc]

lemma IsQuiet.writesRecords (hq : IsQuiet store ops) : WritesRecords ops := by
  intro key v hmem
  cases hq with
  | nothing hops => simp [hops] at hmem
  | single key' o hops hrec hnew hold =>
    rw [hops, KvStore.on_cons, if_pos rfl, KvStore.on_nil, List.append_nil,
      List.mem_singleton] at hmem
    exact hrec v (Prod.ext_iff.mp hmem).2.symm
  | write key' o hb hops hrec hnew hold hkey =>
    rw [hops, KvStore.on_cons, if_pos rfl] at hmem
    rcases List.mem_cons.mp hmem with heq | hmem
    · exact hrec v (Prod.ext_iff.mp heq).2.symm
    · exact hb.writesRecords key v hmem

end Files

end Hier

end Epoch
