import Epoch.Meta.Hier.Batch

/-!
# What an op does to the directory tree

Files, directory links and sentinels are all records of the `fs` family.  `RecordEffect` lists what
each kind of op can write there, with what it found at the names it touched and what it did to the
allocator; every successful `apply` is one of its cases (`apply_recordEffect`).  Segments and queue
entries, which live in other families, do not appear.

The bump of the parent's sentinel is always the last write, and it is there exactly when the
engine holds a sentinel for the parent.
-/

namespace Epoch

lemma mint_eq_ok {ino ino' : InoAllocator} {child : UInt64} (h : ino.mint = .ok (child, ino')) :
    composeIno ino.tag ino.next = some child ∧ ino' = { ino with next := ino.next + 1 } := by
  unfold InoAllocator.mint at h
  cases hc : composeIno ino.tag ino.next with
  | none => simp [hc] at h
  | some i =>
    simp only [hc, Except.ok.injEq, Prod.mk.injEq] at h
    exact ⟨by rw [h.1], h.2.symm⟩

namespace Hier

/-- The `fs` share of a bump. -/
def bumpWrites (store : MetaStore) (b : BucketId) (i : UInt64) (delta ts : Int64) :
    List (Bytes × Option MetaValue) :=
  KvStore.on .Fs (bumpOps store b i delta ts)

/-- The `fs` writes of an op, and the allocator after it. -/
inductive RecordEffect (store : MetaStore) (ino : InoAllocator) :
    HierOp → List (Bytes × Option MetaValue) → InoAllocator → Prop
  | nothing {op : HierOp} : RecordEffect store ino op [] ino
  | reminted {b : BucketId} {i : UInt64} {n : Bytes} {ts : Int64} {child : UInt64}
      {ino' : InoAllocator} (hmint : ino.mint = .ok (child, ino'))
      (hold : store.get .Fs (fsKey b child SENTINEL_NAME) ≠ none) :
      RecordEffect store ino (.MkdirSentinel b i n ts) [] ino'
  | sentinel {b : BucketId} {i : UInt64} {n : Bytes} {ts : Int64} {child : UInt64}
      {ino' : InoAllocator} (hmint : ino.mint = .ok (child, ino'))
      (hold : store.get .Fs (fsKey b child SENTINEL_NAME) = none) :
      RecordEffect store ino (.MkdirSentinel b i n ts)
        [(fsKey b child SENTINEL_NAME,
          some (.Fs (.Sentinel ⟨child, ts, .Exact 0, some (i, n), ts⟩)))] ino'
  | create {b : BucketId} {i : UInt64} {n : Bytes} {size : UInt64} {etag : BitVec 128}
      {content : ContentHead} {http : HttpMeta} {ts : Int64} {f : FileRecord} {ino' : InoAllocator}
      (hn : n ≠ []) (hold : store.get .Fs (fsKey b i n) = none)
      (hmint : ino.mint = .ok (f.ino, ino')) :
      RecordEffect store ino (.Write b i n size etag content http ts)
        ((fsKey b i n, some (.Fs (.File f))) :: bumpWrites store b i 1 ts) ino'
  | overwrite {b : BucketId} {i : UInt64} {n : Bytes} {size : UInt64} {etag : BitVec 128}
      {content : ContentHead} {http : HttpMeta} {ts : Int64} {f old : FileRecord} (hn : n ≠ [])
      (hold : store.get .Fs (fsKey b i n) = some (.Fs (.File old))) :
      RecordEffect store ino (.Write b i n size etag content http ts)
        ((fsKey b i n, some (.Fs (.File f))) :: bumpWrites store b i 0 ts) ino
  | unlink {b : BucketId} {i : UInt64} {n : Bytes} {ts : Int64} {old : FileRecord}
      (hold : store.get .Fs (fsKey b i n) = some (.Fs (.File old))) :
      RecordEffect store ino (.Unlink b i n ts)
        ((fsKey b i n, none) :: bumpWrites store b i (-1) ts) ino
  | link {b : BucketId} {i : UInt64} {n : Bytes} {child : UInt64} {ts : Int64} (hn : n ≠ [])
      (hold : store.get .Fs (fsKey b i n) = none
        ∨ ∃ d, store.get .Fs (fsKey b i n) = some (.Fs (.Sentinel d))) :
      RecordEffect store ino (.MkdirLink b i n child ts)
        ((fsKey b i n, some (.Fs (.Dir ⟨child⟩))) :: bumpWrites store b i 1 ts) ino
  | unlinkDir {b : BucketId} {i : UInt64} {n : Bytes} {ts : Int64} {d : DirEntry}
      (hold : store.get .Fs (fsKey b i n) = some (.Fs (.Dir d))) :
      RecordEffect store ino (.RmdirUnlink b i n ts)
        ((fsKey b i n, none) :: bumpWrites store b i (-1) ts) ino
  | rmdir {b : BucketId} {i : UInt64} {ts : Int64}
      (hold : store.get .Fs (fsKey b i SENTINEL_NAME) ≠ none)
      (hempty : directoryHasChildren store b i = false) :
      RecordEffect store ino (.RmdirSentinel b i ts) [(fsKey b i SENTINEL_NAME, none)] ino
  | rename {b : BucketId} {i : UInt64} {source target : Bytes} {ts : Int64} {f old : FileRecord}
      (hst : source ≠ target) (hsource : store.get .Fs (fsKey b i source) = some (.Fs (.File old)))
      (htarget : store.get .Fs (fsKey b i target) = none) :
      RecordEffect store ino (.RenameSameDir b i source target ts)
        ((fsKey b i target, some (.Fs (.File f))) :: (fsKey b i source, none)
          :: bumpWrites store b i 0 ts) ino
  | renameOver {b : BucketId} {i : UInt64} {source target : Bytes} {ts : Int64}
      {f old dest : FileRecord} (hst : source ≠ target)
      (hsource : store.get .Fs (fsKey b i source) = some (.Fs (.File old)))
      (htarget : store.get .Fs (fsKey b i target) = some (.Fs (.File dest))) :
      RecordEffect store ino (.RenameSameDir b i source target ts)
        ((fsKey b i target, some (.Fs (.File f))) :: (fsKey b i source, none)
          :: bumpWrites store b i (-1) ts) ino

variable {store : MetaStore} {seq i : UInt64} {op : HierOp} {ino ino' : InoAllocator}
  {ws : List (Bytes × Option MetaValue)} {b : BucketId} {d : DirRecord}

/-- **Every successful op is one of these cases.** -/
theorem apply_recordEffect {out : ApplyOutcome} (h : apply store op seq ino = .ok (out, ino')) :
    RecordEffect store ino op (KvStore.on .Fs out.ops) ino' := by
  cases op with
  | Write b i n size etag content http ts =>
    rcases applyWrite_cases h with ⟨reason, rfl, rfl⟩ | ⟨fileIno, delta, bump, hn, hold, hb, -, hops⟩
    · exact .nothing
    · have hon : KvStore.on .Fs out.ops
          = (fsKey b i n, some (.Fs (.File (packFile ⟨fileIno, size, etag, ts, content, 0, http⟩).1)))
            :: bumpWrites store b i delta ts := by
        rw [hops, hb]
        simp [on_captureOldFile, on_packedPuts, bumpWrites]
      rw [hon]
      rcases hold with ⟨f, hf, -, rfl, rfl⟩ | ⟨hnone, hmint, rfl⟩
      · exact .overwrite hn hf
      · refine .create hn hnone ?_
        rw [hmint]
        congr 2
        unfold packFile
        cases content <;> rfl
  | Unlink b i n ts =>
    obtain ⟨ho, rfl⟩ := ok_of_map h
    rcases applyUnlink_cases ho with ⟨reason, rfl⟩ | ⟨-, rfl⟩ | ⟨f, bump, hf, hb, -, hops⟩
    · exact .nothing
    · exact .nothing
    · have hon : KvStore.on .Fs out.ops = (fsKey b i n, none) :: bumpWrites store b i (-1) ts := by
        rw [hops, hb]
        simp [on_captureOldFile, bumpWrites, WriteOp.delete]
      rw [hon]
      exact .unlink hf
  | MkdirSentinel b i n ts =>
    obtain ⟨child, hmint, -, ⟨hops, hold⟩ | ⟨hnone, hops⟩⟩ := applyMkdirSentinel_cases h
    · rw [hops]
      exact .reminted hmint hold
    · rw [hops]
      exact .sentinel hmint hnone
  | MkdirLink b i n child ts =>
    obtain ⟨ho, rfl⟩ := ok_of_map h
    rcases applyMkdirLink_cases ho with ⟨reason, rfl⟩ | rfl | ⟨bump, hn, hold, hb, -, hops⟩
    · exact .nothing
    · exact .nothing
    · rw [hops, hb]
      exact .link hn hold
  | RmdirUnlink b i n ts =>
    obtain ⟨ho, rfl⟩ := ok_of_map h
    rcases applyRmdirUnlink_cases ho with ⟨reason, rfl⟩ | rfl | ⟨d, bump, hold, hb, -, hops⟩
    · exact .nothing
    · exact .nothing
    · rw [hops, hb]
      exact .unlinkDir hold
  | RmdirSentinel b i ts =>
    obtain ⟨rfl, ⟨reason, rfl⟩ | rfl | ⟨hold, hempty, rfl⟩⟩ := applyRmdirSentinel_cases h
    · exact .nothing
    · exact .nothing
    · exact .rmdir hold hempty
  | RenameSameDir b i source target ts =>
    obtain ⟨ho, rfl⟩ := ok_of_map h
    rcases applyRenameSameDir_cases ho with
      ⟨reason, rfl⟩ | ⟨-, rfl⟩ | ⟨f, delta, bump, hst, hf, hold, hdelta, hb, -, hops⟩
    · exact .nothing
    · exact .nothing
    · have hon : KvStore.on .Fs out.ops
          = (fsKey b i target, some (.Fs (.File (packFile { f with mtime := ts }).1)))
            :: (fsKey b i source, none) :: bumpWrites store b i delta ts := by
        rw [hops, hb]
        simp [on_captureOldFile, on_packedPuts, on_deleteSegments, bumpWrites, WriteOp.delete]
      rw [hon, hdelta]
      rcases hold with hnone | ⟨f', hf'⟩
      · rw [if_pos hnone]
        exact .rename hst hf hnone
      · rw [if_neg (by simp [hf'])]
        exact .renameOver hst hf hf'

/-- An op mints at most one inode. -/
lemma RecordEffect.allocator (h : RecordEffect store ino op ws ino') :
    ino' = ino ∨ ∃ child, ino.mint = .ok (child, ino') := by
  cases h with
  | reminted hmint hold => exact Or.inr ⟨_, hmint⟩
  | sentinel hmint hold => exact Or.inr ⟨_, hmint⟩
  | create hn hold hmint => exact Or.inr ⟨_, hmint⟩
  | _ => exact Or.inl rfl

/-- The bump is nothing, or a write of a stored sentinel. -/
lemma mem_bumpWrites {delta ts : Int64} {w : Bytes × Option MetaValue}
    (hw : w ∈ bumpWrites store b i delta ts) :
    ∃ d, store.get .Fs (fsKey b i SENTINEL_NAME) = some (.Fs (.Sentinel d))
      ∧ w = (fsKey b i SENTINEL_NAME, some (.Fs (.Sentinel (bumped d delta ts)))) := by
  unfold bumpWrites at hw
  rcases IsBump.cases (rfl : IsBump store b i delta ts _) with hnil | ⟨d, hd, hbump⟩
  · simp [hnil] at hw
  · rw [hbump] at hw
    exact ⟨d, hd, List.mem_singleton.mp hw⟩

lemma bumpWrites_of_sentinel (delta ts : Int64)
    (hd : store.get .Fs (fsKey b i SENTINEL_NAME) = some (.Fs (.Sentinel d))) :
    bumpWrites store b i delta ts
      = [(fsKey b i SENTINEL_NAME, some (.Fs (.Sentinel (bumped d delta ts))))] := by
  simp [bumpWrites, bumpOps, hd, WriteOp.put]

lemma bumpWrites_eq_nil (delta ts : Int64)
    (hd : ∀ d, store.get .Fs (fsKey b i SENTINEL_NAME) ≠ some (.Fs (.Sentinel d))) :
    bumpWrites store b i delta ts = [] := by
  rw [List.eq_nil_iff_forall_not_mem]
  intro w hw
  obtain ⟨d, hsome, -⟩ := mem_bumpWrites hw
  exact hd d hsome

/-- Only a MkdirLink writes a directory entry. -/
lemma RecordEffect.dir_put (h : RecordEffect store ino op ws ino') {key : Bytes} {d : DirEntry}
    (hmem : (key, some (.Fs (.Dir d))) ∈ ws) :
    ∃ b i n ts, op = .MkdirLink b i n d.ino ts ∧ key = fsKey b i n := by
  have hbump : ∀ {b i delta ts}, (key, some (MetaValue.Fs (.Dir d)))
      ∉ bumpWrites store b i delta ts := by
    intro b i delta ts hw
    obtain ⟨s, -, heq⟩ := mem_bumpWrites hw
    simp at heq
  cases h with
  | link hn hold =>
    rcases List.mem_cons.mp hmem with heq | hmem
    · simp only [Prod.mk.injEq, Option.some.injEq, MetaValue.Fs.injEq, FsRecord.Dir.injEq] at heq
      obtain ⟨rfl, rfl⟩ := heq
      exact ⟨_, _, _, _, rfl, rfl⟩
    · exact absurd hmem hbump
  | nothing => simp at hmem
  | reminted hmint hold => simp at hmem
  | sentinel hmint hold => simp at hmem
  | rmdir hold hempty => simp at hmem
  | create hn hold hmint => simp [hbump] at hmem
  | overwrite hn hold => simp [hbump] at hmem
  | unlink hold => simp [hbump] at hmem
  | unlinkDir hold => simp [hbump] at hmem
  | rename hst hs ht => simp [hbump] at hmem
  | renameOver hst hs ht => simp [hbump] at hmem

/-- A sentinel that is written was there, and has been bumped, or is a MkdirSentinel's new one. -/
lemma RecordEffect.sentinel_put (h : RecordEffect store ino op ws ino') {key : Bytes}
    (hmem : (key, some (.Fs (.Sentinel d))) ∈ ws) :
    (∃ b i d₀ delta ts, key = fsKey b i SENTINEL_NAME
        ∧ store.get .Fs key = some (.Fs (.Sentinel d₀)) ∧ d = bumped d₀ delta ts)
      ∨ ∃ b i n ts child, op = .MkdirSentinel b i n ts ∧ ino.mint = .ok (child, ino')
        ∧ key = fsKey b child SENTINEL_NAME ∧ d = ⟨child, ts, .Exact 0, some (i, n), ts⟩ := by
  have hbump : ∀ {b i delta ts}, (key, some (MetaValue.Fs (.Sentinel d)))
      ∈ bumpWrites store b i delta ts → ∃ b i d₀ delta ts, key = fsKey b i SENTINEL_NAME
        ∧ store.get .Fs key = some (.Fs (.Sentinel d₀)) ∧ d = bumped d₀ delta ts := by
    intro b i delta ts hw
    obtain ⟨d₀, hd₀, heq⟩ := mem_bumpWrites hw
    simp only [Prod.mk.injEq, Option.some.injEq, MetaValue.Fs.injEq, FsRecord.Sentinel.injEq] at heq
    obtain ⟨rfl, rfl⟩ := heq
    exact ⟨b, i, d₀, delta, ts, rfl, hd₀, rfl⟩
  cases h with
  | sentinel hmint hold =>
    have heq := List.mem_singleton.mp hmem
    simp only [Prod.mk.injEq, Option.some.injEq, MetaValue.Fs.injEq,
      FsRecord.Sentinel.injEq] at heq
    exact Or.inr ⟨_, _, _, _, _, rfl, hmint, heq.1, heq.2⟩
  | nothing => simp at hmem
  | reminted hmint hold => simp at hmem
  | rmdir hold hempty => simp at hmem
  | create hn hold hmint => exact Or.inl (hbump (by simpa using hmem))
  | overwrite hn hold => exact Or.inl (hbump (by simpa using hmem))
  | unlink hold => exact Or.inl (hbump (by simpa using hmem))
  | link hn hold => exact Or.inl (hbump (by simpa using hmem))
  | unlinkDir hold => exact Or.inl (hbump (by simpa using hmem))
  | rename hst hs ht => exact Or.inl (hbump (by simpa using hmem))
  | renameOver hst hs ht => exact Or.inl (hbump (by simpa using hmem))

/-- Only a RmdirSentinel removes a sentinel; all other ops keep its inode and its parent link. -/
lemma RecordEffect.sentinel_kept (h : RecordEffect store ino op ws ino')
    (hd : store.get .Fs (fsKey b i SENTINEL_NAME) = some (.Fs (.Sentinel d))) :
    (∃ ts, op = .RmdirSentinel b i ts)
      ∨ ∃ d', ((store .Fs).writeAll ws).get (fsKey b i SENTINEL_NAME) = some (.Fs (.Sentinel d'))
        ∧ d'.ino = d.ino ∧ d'.parentLink = d.parentLink := by
  by_cases hrm : ∃ ts, op = .RmdirSentinel b i ts
  · exact Or.inl hrm
  -- every write to the key stores the sentinel with a new time and count
  have hbump : ∀ {b' i' delta ts o}, (fsKey b i SENTINEL_NAME, o) ∈ bumpWrites store b' i' delta ts →
      ∃ delta ts, o = some (.Fs (.Sentinel (bumped d delta ts))) := by
    intro b' i' delta ts o hw
    obtain ⟨d₀, hd₀, heq⟩ := mem_bumpWrites hw
    simp only [Prod.mk.injEq] at heq
    obtain rfl : d₀ = d := by simpa [← heq.1, hd] using hd₀.symm
    exact ⟨delta, ts, heq.2⟩
  have hother : ∀ {b' i' n o}, store.get .Fs (fsKey b' i' n) = o →
      (∀ d, o ≠ some (.Fs (.Sentinel d))) → fsKey b i SENTINEL_NAME ≠ fsKey b' i' n := by
    intro b' i' n o ho hne heq
    exact hne d (ho.symm.trans (heq ▸ hd))
  have hname : ∀ {b' i' n}, n ≠ [] → fsKey b i SENTINEL_NAME ≠ fsKey b' i' n := by
    intro b' i' n hn heq
    exact hn (fsKey_inj.mp heq).2.2.symm
  have hws : ∀ {o}, (fsKey b i SENTINEL_NAME, o) ∈ ws →
      ∃ delta ts, o = some (.Fs (.Sentinel (bumped d delta ts))) := by
    intro o hmem
    cases h with
    | nothing => cases hmem
    | reminted hmint hold => cases hmem
    | sentinel hmint hold =>
      exact absurd (congrArg Prod.fst (List.mem_singleton.mp hmem)) (hother hold (by simp))
    | rmdir hold hempty =>
      obtain ⟨rfl, rfl, -⟩ := fsKey_inj.mp (congrArg Prod.fst (List.mem_singleton.mp hmem))
      exact absurd ⟨_, rfl⟩ hrm
    | create hn hold hmint => exact hbump (by simpa [hname hn] using hmem)
    | overwrite hn hold => exact hbump (by simpa [hname hn] using hmem)
    | link hn hold => exact hbump (by simpa [hname hn] using hmem)
    | unlink hold => exact hbump ((List.mem_cons.mp hmem).resolve_left fun heq =>
      hother hold (by simp) (congrArg Prod.fst heq))
    | unlinkDir hold => exact hbump ((List.mem_cons.mp hmem).resolve_left fun heq =>
      hother hold (by simp) (congrArg Prod.fst heq))
    | rename hst hsource htarget =>
      have hrest := (List.mem_cons.mp hmem).resolve_left fun heq =>
        hother htarget (by simp) (congrArg Prod.fst heq)
      exact hbump ((List.mem_cons.mp hrest).resolve_left fun heq =>
        hother hsource (by simp) (congrArg Prod.fst heq))
    | renameOver hst hsource htarget =>
      have hrest := (List.mem_cons.mp hmem).resolve_left fun heq =>
        hother htarget (by simp) (congrArg Prod.fst heq)
      exact hbump ((List.mem_cons.mp hrest).resolve_left fun heq =>
        hother hsource (by simp) (congrArg Prod.fst heq))
  right
  rcases (store .Fs).get_writeAll_cases ws (fsKey b i SENTINEL_NAME) with hsame | hmem
  · exact ⟨d, hsame.trans hd, rfl, rfl⟩
  · obtain ⟨delta, ts, ho⟩ := hws hmem
    exact ⟨_, ho, rfl, rfl⟩

end Hier

end Epoch
