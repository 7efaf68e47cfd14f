import Epoch.Lib.Run
import Epoch.Meta.Hier.Batch

/-!
# Hierarchical file content as a map

For its files the hierarchical namespace is a map from `(bucket, parent_ino, name)` to records with
their full slice list.  `HierMap.step` says what an accepted op means there: a Write sets its name,
an Unlink clears it, a rename moves a record and changes nothing of it but the mtime; directory
ops do not concern files.  A `HierRun` carries the store, the inode allocator and, as a history
variable, the map.

**Refinement.**  `readFile_refines`: in every run whose steps meet `HierGuard`, reading any name
yields exactly what the map holds.  The guard is a condition on the store before the step, and both
of its parts about segments are needed.  Captures and renames walk a prefix that longer names
share, and a rename repacks the source's head record only, so a file with segments loses them
(`renameSameDir_truncates`).
-/

namespace Epoch

/-! ## The abstract map -/

/-- Files with their full contents. -/
abbrev HierMap := BucketId → UInt64 → Bytes → Option FileRecord

namespace HierMap

def set (m : HierMap) (b : BucketId) (i : UInt64) (n : Bytes) (o : Option FileRecord) : HierMap :=
  fun b' i' n' => if (b', i', n') = (b, i, n) then o else m b' i' n'

/-- The effect of an accepted op, `fresh` being the inode a new file would get. -/
def step (m : HierMap) (fresh : UInt64) : HierOp → HierMap
  | .Write b i n size etag content http ts =>
    m.set b i n (some
      ⟨((m b i n).map FileRecord.ino).getD fresh, size, etag, ts, content, 0, http⟩)
  | .Unlink b i n _ => m.set b i n none
  | .RenameSameDir b i source target ts =>
    if source = target then m
    else (m.set b i target ((m b i source).map fun f => { f with mtime := ts })).set b i source none
  | _ => m

end HierMap

/-! ## Runs -/

/-- A store, its allocator, and the map the accepted ops have built. -/
structure HierRun where
  store : MetaStore
  ino : InoAllocator
  map : HierMap

namespace HierRun

def init (store : MetaStore) (ino : InoAllocator) : HierRun := ⟨store, ino, fun _ _ _ => none⟩

/-- The inode the allocator hands out next. -/
def fresh (s : HierRun) : UInt64 := (composeIno s.ino.tag s.ino.next).getD 0

/-- Apply one op under its sequence number and commit the batch; an op that errs commits
nothing. -/
def step (s : HierRun) (a : HierOp × UInt64) : HierRun :=
  match Hier.apply s.store a.1 a.2 s.ino with
  | .error _ => s
  | .ok (out, ino') =>
    ⟨s.store.applyBatch out.ops, ino',
      if out.response.accepted then s.map.step s.fresh a.1 else s.map⟩

end HierRun

/-- A store as bucket creation leaves it: directory sentinels and nothing else. -/
def Seeded (store : MetaStore) : Prop :=
  (∀ e ∈ (store .Fs).toList, ∃ d, e.2 = .Fs (.Sentinel d)) ∧ ∀ c, c ≠ .Fs → store c = .empty

namespace Hier

/-- If the name holds a file, no other file's segments lie under its key. -/
def FileIsolated (store : MetaStore) (b : BucketId) (i : UInt64) (n : Bytes) : Prop :=
  (fileAt store b i n).isSome → SegIsolated (store .MetaSeg) b (hierRoutingKey i n)

instance (store : MetaStore) (b : BucketId) (i : UInt64) (n : Bytes) :
    Decidable (FileIsolated store b i n) := inferInstanceAs (Decidable (_ → _))

/-- Read a file: the head record's content, then its segments `0..seg_count`. -/
def readFile (store : MetaStore) (b : BucketId) (i : UInt64) (n : Bytes) :
    Except ReadError (Option FileRecord) :=
  match lookup store b i n with
  | .error e => .error (.Head e)
  | .ok (some (.File f)) =>
    match f.content with
    | .Inline _ => .ok (some f)
    | .Slices embedded =>
      match readSegments store (segKey b i n) f.segCount.toNat 0 embedded with
      | .error e => .error e
      | .ok slices => .ok (some { f with content := .Slices slices })
  | .ok _ => .ok none

end Hier

/-- The condition on a step: whatever walks a file's segments finds only that file's, new segments
can be numbered by a `u32`, a renamed file has no segments, and a file that was renamed to the
empty name is not removed as its directory's sentinel. -/
def HierGuard (s : HierRun) (a : HierOp × UInt64) : Prop :=
  match a.1 with
  | .Write b i n _ _ content _ _ =>
    Hier.FileIsolated s.store b i n ∧ content.intoSlices.length ≤ maxSlices
  | .Unlink b i n _ => Hier.FileIsolated s.store b i n
  | .RenameSameDir b i source target _ =>
    source ≠ target → Hier.FileIsolated s.store b i source ∧ Hier.FileIsolated s.store b i target
      ∧ (Hier.fileAt s.store b i source).all fun f => f.segCount = 0
  | .RmdirSentinel b i _ => (Hier.fileAt s.store b i Hier.SENTINEL_NAME).isNone
  | _ => True

instance (s : HierRun) (a : HierOp × UInt64) : Decidable (HierGuard s a) := by
  unfold HierGuard
  cases a.1 <;> infer_instance

/-! ## The read path -/

/-- What reading a file with this full record returns. -/
def FileRecord.view (f : FileRecord) : FileRecord :=
  { (Hier.packFile f).1 with content := f.content }

namespace Hier

lemma packFile_segments_length {f : FileRecord} (hb : f.content.intoSlices.length ≤ maxSlices) :
    (packFile f).2.length < 2 ^ 32 := by
  unfold packFile
  cases hc : f.content with
  | Inline bytes => simp
  | Slices slices =>
    rw [hc] at hb
    exact length_splitSlices_segments hb

/-- The stored files are those of `files`, split into heads and segments. -/
structure Stored (store : MetaStore) (files : HierMap) : Prop where
  records : ∀ key v, store.get .Fs key = some v → ∃ r, v = .Fs r
  heads : ∀ b i n, fileAt store b i n = (files b i n).map fun f => (packFile f).1
  segs : ∀ b i n, SegsAre (store .MetaSeg) b (hierRoutingKey i n)
    ((files b i n).elim [] fun f => (packFile f).2)
  bound : ∀ b i n f, files b i n = some f → f.content.intoSlices.length ≤ maxSlices

lemma readFile_of_fileAt_eq_none {store : MetaStore} {b : BucketId} {i : UInt64} {n : Bytes}
    (hr : ∀ v, store.get .Fs (fsKey b i n) = some v → ∃ r, v = .Fs r)
    (h : fileAt store b i n = none) : readFile store b i n = .ok none := by
  unfold readFile lookup readRecord
  cases hg : store.get .Fs (fsKey b i n) with
  | none => rfl
  | some v =>
    obtain ⟨r, rfl⟩ := hr v hg
    cases r with
    | File f => simp [fileAt, hg, fileOf, MetaValue.fs?, FsRecord.file?] at h
    | Dir d => rfl
    | Sentinel d => rfl

/-- **The read path returns what is stored**, in full and in order. -/
theorem Stored.readFile {store : MetaStore} {files : HierMap} (h : Stored store files)
    (b : BucketId) (i : UInt64) (n : Bytes) :
    readFile store b i n = .ok ((files b i n).map FileRecord.view) := by
  have hhead := h.heads b i n
  have hsegs := h.segs b i n
  cases ho : files b i n with
  | none =>
    rw [ho] at hhead
    exact readFile_of_fileAt_eq_none (h.records _) hhead
  | some f =>
    rw [ho] at hhead hsegs
    have hget := fileAt_eq_some.mp hhead
    have hlen := packFile_segments_length (h.bound b i n f ho)
    simp only [Option.elim_some] at hsegs
    simp only [Hier.readFile, lookup, readRecord, hget, decode, MetaValue.fs?, Except.map]
    cases hc : f.content with
    | Inline bytes => simp [packFile, hc, FileRecord.view]
    | Slices slices =>
      have hp1 : (packFile f).1.content = .Slices (splitSlices slices).1 := by
        simp [packFile, hc]
      have hp2 : (packFile f).2 = (splitSlices slices).2 := by simp [packFile, hc]
      have hcount : (packFile f).1.segCount.toNat = (packFile f).2.length := by
        have : (packFile f).1.segCount = UInt32.ofNat (packFile f).2.length := by
          simp [packFile, hc]
        rw [this, toNat_ofNat32 hlen]
      have hread : readSegments store (segKey b i n) (packFile f).1.segCount.toNat 0
          (splitSlices slices).1 = .ok slices := by
        rw [segKey_eq, hcount, readSegments_of_segsAre hsegs hlen, hp2, splitSlices_slices]
      simp only [hp1, hread, FileRecord.view, hc, Option.map_some]

/-! ## Batches -/

section Batch

variable {store : MetaStore} {files : HierMap} {ops bump : List StoreOp} {b : BucketId}
  {i : UInt64} {n : Bytes} {delta ts : Int64}

lemma captureSegs_eq (store : MetaStore) (b : BucketId) (i : UInt64) (n : Bytes) :
    ((captureSegs store b i n).map fun e => (e.1, (none : Option MetaValue)))
      = if store.get .Fs (fsKey b i n) = none then []
        else segDeletes store b (hierRoutingKey i n) := by
  unfold captureSegs
  cases store.get .Fs (fsKey b i n) with
  | none => simp
  | some v => simp [oldSegments_eq]

lemma routing_ne {b' : BucketId} {i' : UInt64} {n' : Bytes} (h : (b', i', n') ≠ (b, i, n)) :
    (b', hierRoutingKey i' n') ≠ (b, hierRoutingKey i n) := by
  intro heq
  obtain ⟨rfl, hk⟩ := Prod.ext_iff.mp heq
  obtain ⟨rfl, rfl⟩ := hierRoutingKey_inj.mp hk
  exact h rfl

lemma Stored.records_applyBatch (h : Stored store files) (hw : WritesRecords ops) :
    ∀ key v, (store.applyBatch ops .Fs).get key = some v → ∃ r, v = MetaValue.Fs r := by
  intro key v hget
  rw [KvStore.applyBatch_cf] at hget
  rcases OrdMap.get_writeAll_eq_some hget with hmem | hold
  · exact hw key v hmem
  · exact h.records key v hold

/-- **A capture** leaves its name no segments and every other file its own. -/
lemma Stored.capture (h : Stored store files)
    (hold : store.get .Fs (fsKey b i n) = none
      ∨ ∃ f, store.get .Fs (fsKey b i n) = some (.Fs (.File f)))
    (hiso : FileIsolated store b i n) :
    SegsAre ((store .MetaSeg).writeAll ((captureSegs store b i n).map fun e => (e.1, none))) b
        (hierRoutingKey i n) []
      ∧ ∀ {b' : BucketId} {i' : UInt64} {n' : Bytes}, (b', i', n') ≠ (b, i, n) → ∀ j,
        ((store .MetaSeg).writeAll ((captureSegs store b i n).map fun e => (e.1, none))).get
            (segmentKey b' (hierRoutingKey i' n') j)
          = (store .MetaSeg).get (segmentKey b' (hierRoutingKey i' n') j) := by
  rw [captureSegs_eq]
  rcases hold with hnone | ⟨f, hf⟩
  · rw [if_pos hnone]
    refine ⟨?_, fun _ _ => rfl⟩
    -- no file is stored here, so there are no segments either
    have hfile : files b i n = none := by
      have := h.heads b i n
      rw [fileAt, hnone] at this
      simpa [fileOf] using this.symm
    simpa [hfile] using h.segs b i n
  · have hsome : (fileAt store b i n).isSome := by rw [fileAt_eq_some.mpr hf]; rfl
    rw [if_neg (by simp [hf])]
    exact ⟨segsAre_nil_of_walk, fun hne j => segs_walk_frame _ (hiso hsome) (routing_ne hne) j⟩

lemma Stored.replace (h : Stored store files) {o : Option FileRecord}
    (hr : Replaces store b i n o seq delta ts ops) (hiso : FileIsolated store b i n)
    (hbound : ∀ f, o = some f → f.content.intoSlices.length ≤ maxSlices) :
    Stored (store.applyBatch ops) (files.set b i n o) := by
  have hlen : (o.elim [] fun f => (packFile f).2).length < 2 ^ 32 := by
    cases o with
    | none => simp
    | some f => exact packFile_segments_length (hbound f rfl)
  obtain ⟨hgone, hframe⟩ := h.capture hr.old hiso
  refine ⟨h.records_applyBatch ?_, fun b' i' n' => ?_, fun b' i' n' => ?_, fun b' i' n' f hf => ?_⟩
  · intro key v hmem
    rw [hr.fs] at hmem
    rcases List.mem_cons.mp hmem with heq | hmem
    · cases o with
      | none => simp at heq
      | some f => exact ⟨_, by simpa using (Prod.ext_iff.mp heq).2⟩
    · exact IsBump.writesRecords rfl key v hmem
  · rw [hr.fileAt_eq, HierMap.set]
    split_ifs
    · rfl
    · exact h.heads b' i' n'
  · rw [KvStore.applyBatch_cf, hr.segs, OrdMap.writeAll_append, HierMap.set]
    by_cases hbk : (b', i', n') = (b, i, n)
    · obtain ⟨rfl, rfl, rfl⟩ : b' = b ∧ i' = i ∧ n' = n := by simpa using hbk
      rw [if_pos rfl]
      exact segsAre_put hlen hgone
    · rw [if_neg hbk]
      intro j
      rw [get_segWrites_other _ j (routing_ne hbk), hframe hbk]
      exact h.segs b' i' n' j
  · rw [HierMap.set] at hf
    split_ifs at hf with hbk
    · exact hbound f hf
    · exact h.bound b' i' n' f hf

lemma Stored.quiet (h : Stored store files) (hq : IsQuiet store ops) :
    Stored (store.applyBatch ops) files := by
  refine ⟨h.records_applyBatch hq.writesRecords, fun b i n => ?_, fun b i n => ?_, h.bound⟩
  · rw [hq.fileAt_eq]
    exact h.heads b i n
  · rw [KvStore.applyBatch_of_on_eq_nil (hq.on_eq_nil (by decide))]
    exact h.segs b i n

/-- A file without segments is packed as it is. -/
lemma packFile_packFile {f : FileRecord} (ts : Int64) (h : (packFile f).1.segCount = 0)
    (hb : f.content.intoSlices.length ≤ maxSlices) :
    packFile { (packFile f).1 with mtime := ts } = packFile { f with mtime := ts }
      ∧ (packFile { f with mtime := ts }).2 = [] := by
  cases hc : f.content with
  | Inline bytes => simp [packFile, hc]
  | Slices slices =>
    have hlen := packFile_segments_length hb
    simp only [packFile, hc] at h hlen
    have hnil : (splitSlices slices).2 = [] := by
      have := congrArg UInt32.toNat h
      rw [toNat_ofNat32 hlen] at this
      exact List.length_eq_zero_iff.mp this
    have hall := splitSlices_slices slices
    rw [hnil, List.flatMap_nil, List.append_nil] at hall
    simp [packFile, hc, hall, hnil]

/-- Moving a file without segments. -/
lemma Stored.rename (h : Stored store files) {source target : Bytes} {f g : FileRecord}
    (hm : Moves store b i source target f seq delta ts ops) (hsource : files b i source = some g)
    (hseg0 : f.segCount = 0) (hisoS : FileIsolated store b i source)
    (hisoT : FileIsolated store b i target) :
    Stored (store.applyBatch ops)
      ((files.set b i target (some { g with mtime := ts })).set b i source none) := by
  have hheadS : fileAt store b i source = some f := fileAt_eq_some.mpr hm.moved
  obtain rfl : (packFile g).1 = f := by
    have hh := h.heads b i source
    rw [hheadS, hsource] at hh
    exact (Option.some.inj hh).symm
  obtain ⟨hsame, hpack⟩ := packFile_packFile ts hseg0 (h.bound b i source g hsource)
  -- the capture at `target`: it has no segments afterwards, and no other file lost any
  obtain ⟨hgone, hframe⟩ := h.capture hm.old hisoT
  refine ⟨h.records_applyBatch ?_, fun b' i' n' => ?_, fun b' i' n' => ?_, fun b' i' n' f hf => ?_⟩
  · intro key v hmem
    rw [hm.fs] at hmem
    simp only [List.mem_cons, Prod.mk.injEq, Option.some.injEq, reduceCtorEq, and_false,
      false_or] at hmem
    rcases hmem with ⟨-, rfl⟩ | hmem
    · exact ⟨_, rfl⟩
    · exact IsBump.writesRecords rfl key v hmem
  · rw [hm.fileAt_eq, hsame, HierMap.set, HierMap.set]
    split_ifs
    · rfl
    · rfl
    · exact h.heads b' i' n'
  · rw [KvStore.applyBatch_cf, hm.segs, hsame, hpack, segWrites_nil, List.append_nil,
      OrdMap.writeAll_append, HierMap.set, HierMap.set]
    have hisoS' := hisoS (by rw [hheadS]; rfl)
    by_cases hs : (b', i', n') = (b, i, source)
    · obtain ⟨rfl, rfl, rfl⟩ : b' = b ∧ i' = i ∧ n' = source := by simpa using hs
      rw [if_pos rfl]
      refine segsAre_nil_of_walk_after fun j hj => ?_
      rw [hframe (by simpa using hm.ne)]
      exact hj
    · rw [if_neg hs]
      by_cases ht : (b', i', n') = (b, i, target)
      · obtain ⟨rfl, rfl, rfl⟩ : b' = b ∧ i' = i ∧ n' = target := by simpa using ht
        rw [if_pos rfl, Option.elim_some, hpack]
        intro j
        rw [segs_walk_frame _ hisoS' (routing_ne hs)]
        exact hgone j
      · rw [if_neg ht]
        intro j
        rw [segs_walk_frame _ hisoS' (routing_ne hs), hframe ht]
        exact h.segs b' i' n' j
  · rw [HierMap.set, HierMap.set] at hf
    split_ifs at hf with hs ht
    · obtain rfl := Option.some.inj hf
      exact h.bound b i source g hsource
    · exact h.bound b' i' n' f hf

end Batch

end Hier

/-! ## Runs refine the map -/

section Step

open Hier

variable {s : HierRun} {seq i : UInt64} {op : HierOp} {b : BucketId} {ts : Int64}

lemma HierRun.step_of_ok {out : ApplyOutcome} {ino' : InoAllocator}
    (h : Hier.apply s.store op seq s.ino = .ok (out, ino')) :
    s.step (op, seq)
      = ⟨s.store.applyBatch out.ops, ino',
          if out.response.accepted then s.map.step s.fresh op else s.map⟩ := by
  simp [HierRun.step, h]

lemma HierRun.step_of_error {e : MetaStoreError} (h : Hier.apply s.store op seq s.ino = .error e) :
    s.step (op, seq) = s := by
  simp [HierRun.step, h]

lemma HierRun.fresh_eq {fileIno : UInt64} {ino' : InoAllocator}
    (h : s.ino.mint = .ok (fileIno, ino')) : s.fresh = fileIno := by
  unfold InoAllocator.mint at h
  unfold HierRun.fresh
  cases hc : composeIno s.ino.tag s.ino.next with
  | none => simp [hc] at h
  | some ino => simp_all

lemma Hier.Stored.write (h : Stored s.store s.map) {n : Bytes} {size : UInt64} {etag : BitVec 128}
    {content : ContentHead} {http : HttpMeta}
    (hg : HierGuard s (.Write b i n size etag content http ts, seq)) :
    let s' := s.step (.Write b i n size etag content http ts, seq)
    Stored s'.store s'.map := by
  intro s'
  cases ha : Hier.apply s.store (.Write b i n size etag content http ts) seq s.ino with
  | error e =>
    rw [show s' = s from HierRun.step_of_error ha]
    exact h
  | ok r =>
    obtain ⟨out, ino'⟩ := r
    rw [show s' = _ from HierRun.step_of_ok ha]
    rcases applyWrite_cases ha with
      ⟨reason, rfl, -⟩ | ⟨fileIno, delta, bump, -, hino, hb, ⟨hresp, -⟩, hops⟩
    · exact h
    · have hnew : ((s.map b i n).map FileRecord.ino).getD s.fresh = fileIno := by
        have hh := h.heads b i n
        rcases hino with ⟨f, hf, rfl, -, -⟩ | ⟨hnone, hmint, -⟩
        · rw [fileAt_eq_some.mpr hf] at hh
          cases hm : s.map b i n with
          | none => simp [hm] at hh
          | some g =>
            have hgf : f = (packFile g).1 := by simpa [hm] using hh
            rw [hgf]
            unfold packFile
            cases g.content <;> rfl
        · rw [fileAt, hnone] at hh
          have hm : s.map b i n = none := by simpa [fileOf] using hh.symm
          rw [hm]
          exact HierRun.fresh_eq hmint
      rw [hresp, hops]
      simp only [MetaResponse.accepted, if_true, HierMap.step, hnew]
      refine h.replace (replaces_write _ ?_ hb rfl) hg.1 ?_
      · rcases hino with ⟨f, hf, -⟩ | ⟨hnone, -⟩
        · exact Or.inr ⟨f, hf⟩
        · exact Or.inl hnone
      · rintro _ ⟨⟩
        exact hg.2

lemma Hier.Stored.unlink (h : Stored s.store s.map) {n : Bytes}
    (hg : HierGuard s (.Unlink b i n ts, seq)) :
    let s' := s.step (.Unlink b i n ts, seq)
    Stored s'.store s'.map := by
  intro s'
  cases ha : Hier.apply s.store (.Unlink b i n ts) seq s.ino with
  | error e =>
    rw [show s' = s from HierRun.step_of_error ha]
    exact h
  | ok r =>
    obtain ⟨out, ino'⟩ := r
    rw [show s' = _ from HierRun.step_of_ok ha]
    obtain ⟨ho, rfl⟩ := ok_of_map ha
    rcases applyUnlink_cases ho with
      ⟨reason, rfl⟩ | ⟨hnone, rfl⟩ | ⟨f, bump, hf, hb, ⟨hresp, -⟩, hops⟩
    · exact h
    · -- nothing was there, and the map holds nothing either
      have hm : s.map.set b i n none = s.map := by
        have hh := h.heads b i n
        rw [fileAt, hnone] at hh
        have hm : s.map b i n = none := by simpa [fileOf] using hh.symm
        funext b' i' n'
        rw [HierMap.set]
        split_ifs with hbk
        · obtain ⟨rfl, rfl, rfl⟩ : b' = b ∧ i' = i ∧ n' = n := by simpa using hbk
          exact hm.symm
        · rfl
      simp only [ApplyOutcome.noDelta, MetaResponse.accepted, if_true, HierMap.step, hm]
      exact h
    · rw [hresp, hops]
      exact h.replace (replaces_unlink _ hf hb rfl) hg (by rintro _ ⟨⟩)

lemma Hier.Stored.renameSameDir (h : Stored s.store s.map) {source target : Bytes}
    (hg : HierGuard s (.RenameSameDir b i source target ts, seq)) :
    let s' := s.step (.RenameSameDir b i source target ts, seq)
    Stored s'.store s'.map := by
  intro s'
  cases ha : Hier.apply s.store (.RenameSameDir b i source target ts) seq s.ino with
  | error e =>
    rw [show s' = s from HierRun.step_of_error ha]
    exact h
  | ok r =>
    obtain ⟨out, ino'⟩ := r
    rw [show s' = _ from HierRun.step_of_ok ha]
    obtain ⟨ho, rfl⟩ := ok_of_map ha
    rcases applyRenameSameDir_cases ho with
      ⟨reason, rfl⟩ | ⟨hst, rfl⟩ | ⟨f, delta, bump, hst, hf, hold, -, hb, ⟨hresp, -⟩, hops⟩
    · exact h
    · simp only [ApplyOutcome.noDelta, MetaResponse.accepted, if_true, HierMap.step, if_pos hst]
      exact h
    · obtain ⟨hisoS, hisoT, hcount⟩ := hg hst
      have hh := h.heads b i source
      rw [fileAt_eq_some.mpr hf] at hh
      obtain ⟨g, hg', -⟩ := Option.map_eq_some_iff.mp hh.symm
      have hseg0 : f.segCount = 0 := by simpa [fileAt_eq_some.mpr hf] using hcount
      rw [hresp, hops]
      simp only [MetaResponse.accepted, if_true, HierMap.step, if_neg hst, hg', Option.map_some]
      exact h.rename (moves_rename _ hst hf hold hb rfl) hg' hseg0 hisoS hisoT

lemma Hier.Stored.directory (h : Stored s.store s.map) (hdir : op.isDirectory = true)
    (hg : HierGuard s (op, seq)) :
    Stored (s.step (op, seq)).store (s.step (op, seq)).map := by
  cases ha : Hier.apply s.store op seq s.ino with
  | error e =>
    rw [HierRun.step_of_error ha]
    exact h
  | ok r =>
    obtain ⟨out, ino'⟩ := r
    have hmap : s.map.step s.fresh op = s.map := by cases op <;> first | rfl | cases hdir
    have hq : IsQuiet s.store out.ops := by
      refine apply_isQuiet hdir ?_ ha
      rintro b i ts rfl
      simpa [HierGuard] using hg
    rw [HierRun.step_of_ok ha]
    simp only [hmap, ite_self]
    exact h.quiet hq

/-- **One guarded step keeps the store and the map in agreement.** -/
theorem Hier.Stored.step (h : Stored s.store s.map) {a : HierOp × UInt64} (hg : HierGuard s a) :
    Stored (s.step a).store (s.step a).map := by
  obtain ⟨op, seq⟩ := a
  cases op with
  | Write b i n size etag content http ts => exact h.write hg
  | Unlink b i n ts => exact h.unlink hg
  | RenameSameDir b i source target ts => exact h.renameSameDir hg
  | MkdirSentinel b i n ts => exact h.directory rfl hg
  | MkdirLink b i n child ts => exact h.directory rfl hg
  | RmdirUnlink b i n ts => exact h.directory rfl hg
  | RmdirSentinel b i ts => exact h.directory rfl hg

lemma Seeded.stored {store : MetaStore} (h : Seeded store) (ino : InoAllocator) :
    Stored (HierRun.init store ino).store (HierRun.init store ino).map where
  records key v hget := by
    obtain ⟨d, hd⟩ := h.1 (key, v) (((store .Fs).mem_toList_iff key v).mpr hget)
    exact ⟨_, hd⟩
  heads b i n := by
    rw [fileAt, HierRun.init]
    cases hg : store.get .Fs (fsKey b i n) with
    | none => rfl
    | some v =>
      obtain ⟨d, hd⟩ := h.1 (_, v) (((store .Fs).mem_toList_iff _ v).mpr hg)
      simp only at hd
      rw [hd]
      rfl
  segs b i n j := by
    simp only [HierRun.init]
    rw [h.2 .MetaSeg (by decide)]
    rfl
  bound b i n f hf := by cases hf

end Step

/-- **Hierarchical file content refines a map.**  From a seeded store, after every run whose steps
meet the guard, reading any name returns exactly the record the map holds there: what the last
accepted Write of that name wrote, or what the source of the last accepted rename onto it held,
unless it has been unlinked or renamed away since.  An accepted rename to another name makes the
target read as the source did, in everything but the mtime. -/
theorem readFile_refines (store : MetaStore) (ino : InoAllocator) (hseed : Seeded store)
    (ops : List (HierOp × UInt64))
    (h : Along HierRun.step HierGuard (HierRun.init store ino) ops) :
    let s := run HierRun.step (HierRun.init store ino) ops
    (∀ b i n, Hier.readFile s.store b i n = .ok ((s.map b i n).map FileRecord.view))
      ∧ ∀ b i source target ts seq out ino', source ≠ target →
          HierGuard s (.RenameSameDir b i source target ts, seq) →
          Hier.apply s.store (.RenameSameDir b i source target ts) seq s.ino = .ok (out, ino') →
          out.response.accepted →
          ∃ f, Hier.readFile s.store b i source = .ok (some f)
            ∧ Hier.readFile (s.store.applyBatch out.ops) b i target
              = .ok (some { f with mtime := ts }) := by
  intro s
  have hs : Hier.Stored s.store s.map := h.invariant
    (P := fun s => Hier.Stored s.store s.map) (fun _ _ hs hg => hs.step hg) (hseed.stored ino)
  refine ⟨hs.readFile, ?_⟩
  intro b i source target ts seq out ino' hst hg ha hacc
  have hs' : Hier.Stored (s.store.applyBatch out.ops)
      (s.map.step s.fresh (.RenameSameDir b i source target ts)) := by
    simpa [HierRun.step_of_ok ha, hacc] using hs.step hg
  -- an accepted rename found a file at its source
  obtain ⟨f, hf⟩ : ∃ f, s.map b i source = some f := by
    rcases Hier.applyRenameSameDir_cases (Hier.ok_of_map ha).1 with
      ⟨reason, rfl⟩ | ⟨heq, -⟩ | ⟨g, delta, bump, -, hfile, -⟩
    · cases hacc
    · exact absurd heq hst
    · have hh := hs.heads b i source
      rw [Hier.fileAt_eq_some.mpr hfile] at hh
      obtain ⟨f, hf, -⟩ := Option.map_eq_some_iff.mp hh.symm
      exact ⟨f, hf⟩
  refine ⟨f.view, by rw [hs.readFile, hf]; rfl, ?_⟩
  rw [hs'.readFile]
  have hmap : s.map.step s.fresh (.RenameSameDir b i source target ts) b i target
      = some { f with mtime := ts } := by
    simp [HierMap.step, hst, HierMap.set, hf, Ne.symm hst]
  rw [hmap, Option.map_some]
  unfold FileRecord.view Hier.packFile
  cases hc : f.content <;> simp

lemma seeded_demoRoot : Seeded demoRoot := by
  refine ⟨?_, fun c hc => ?_⟩
  · intro e he
    obtain rfl := List.mem_singleton.mp he
    exact ⟨_, rfl⟩
  · cases c <;> first | rfl | exact absurd rfl hc

/-- A large file `h` beside a small file `f`, which is then renamed: the run meets the guard,
every name reads right, and `g` reads as `f` did. -/
theorem readFile_refines_demo :
    let s := run HierRun.step (HierRun.init demoRoot ⟨1, 0⟩)
      [(demoWrite [0x68] 65, 0), (demoWrite [0x66] 2, 1)]
    (∀ b i n, Hier.readFile s.store b i n = .ok ((s.map b i n).map FileRecord.view))
      ∧ ∃ f, Hier.readFile s.store 1 ROOT_INO [0x66] = .ok (some f)
        ∧ Hier.readFile (s.step (.RenameSameDir 1 ROOT_INO [0x66] [0x67] 7, 2)).store 1 ROOT_INO [0x67]
          = .ok (some { f with mtime := 7 }) := by
  intro s
  obtain ⟨hread, hrename⟩ := readFile_refines demoRoot ⟨1, 0⟩ seeded_demoRoot
    [(demoWrite [0x68] 65, 0), (demoWrite [0x66] 2, 1)] (by decide +kernel)
  refine ⟨hread, ?_⟩
  cases ha : Hier.apply s.store (.RenameSameDir 1 ROOT_INO [0x66] [0x67] 7) 2 s.ino with
  | error e =>
    have hok : (Hier.apply s.store (.RenameSameDir 1 ROOT_INO [0x66] [0x67] 7) 2 s.ino).toBool
        = true := by decide +kernel
    rw [ha] at hok
    cases hok
  | ok r =>
    have hacc : (Hier.apply s.store (.RenameSameDir 1 ROOT_INO [0x66] [0x67] 7) 2 s.ino).toOption.any
        (fun r => r.1.response.accepted) = true := by decide +kernel
    rw [ha] at hacc
    rw [HierRun.step_of_ok ha]
    exact hrename 1 ROOT_INO [0x66] [0x67] 7 2 r.1 r.2 (by decide) (by decide +kernel) ha hacc

/-- Renaming a file of 65 slices: the map says that the new name holds all of them, but only the
64 of the head record can be read. -/
theorem renameSameDir_truncates :
    let s := run HierRun.step (HierRun.init demoRoot ⟨1, 0⟩)
      [(demoWrite [0x66] 65, 0), (.RenameSameDir 1 ROOT_INO [0x66] [0x67] 7, 1)]
    (s.map 1 ROOT_INO [0x67]).map (fun f => f.content.intoSlices.length) = some 65
      ∧ (Hier.readFile s.store 1 ROOT_INO [0x67]).map
          (Option.map fun f => f.content.intoSlices.length) = .ok (some 64) := by
  decide +kernel

end Epoch
