import Epoch.Meta.Footprint

/-!
# What ops do to the inline accounts

The guard of a partition counts inline payload bytes, inline contents and object bytes.  An op
reports a signed delta for them, computed from the record it overwrites and the one it writes, and
the guard adds it with saturation.

Here the counted quantity is defined on the store itself, as the sum of `Namespace.account` over the
records under a chosen set of keys, and each op's delta is shown to be the exact change of that sum
as long as the records it replaces lie in the set (`Flat.apply_balanced`, `Hier.apply_balanced`).
Below `2⁶³` neither the conversion to `i64` nor the saturation loses anything
(`Balanced.account_eq`).
-/

namespace Epoch

/-- Inline payload length, number of inline contents and size of one content. -/
def ContentHead.account (content : ContentHead) (size : UInt64) : ℕ × ℕ × ℕ :=
  match content with
  | .Inline bytes => (bytes.length, 1, size.toNat)
  | .Slices _ => (0, 0, size.toNat)

def FileRecord.account (file : FileRecord) : ℕ × ℕ × ℕ := file.content.account file.size

/-- What a stored value counts: a head in the flat namespace, a File record in the hierarchical
one. -/
def Namespace.account : Namespace → MetaValue → ℕ × ℕ × ℕ
  | .Flat, v => (v.head?.map fun head => head.content.account head.size).getD 0
  | .Hier, v => ((Hier.fileOf (some v)).map FileRecord.account).getD 0

/-- The account of a point read. -/
def Namespace.accountAt (ns : Namespace) (o : Option MetaValue) : ℕ × ℕ × ℕ :=
  (o.map ns.account).getD 0

/-- The account of the records under the keys that satisfy `p`. -/
def accountOf (ns : Namespace) (p : Bytes → Bool) (store : MetaStore) : ℕ × ℕ × ℕ :=
  (store ns.primaryCf).total fun key v => if p key then ns.account v else 0

/-- The delta that an op computes from a new and an old account. -/
def GuardDelta.between (new old : ℕ × ℕ × ℕ) : GuardDelta where
  inlineBytes := (UInt64.ofNat new.1).toInt64 - (UInt64.ofNat old.1).toInt64
  inlineCount := (UInt64.ofNat new.2.1).toInt64 - (UInt64.ofNat old.2.1).toInt64
  totalBytes := (UInt64.ofNat new.2.2).toInt64 - (UInt64.ofNat old.2.2).toInt64

/-- The delta is the change of the account between two stores. -/
def Balanced (ns : Namespace) (p : Bytes → Bool) (store store' : MetaStore) (delta : GuardDelta) :
    Prop :=
  ∃ new old, delta = .between new old ∧ accountOf ns p store' + old = accountOf ns p store + new
    ∧ old ≤ accountOf ns p store ∧ new ≤ accountOf ns p store'

/-! ## Deltas as numbers -/

lemma toInt_toInt64_ofNat {n : ℕ} (h : n < 2 ^ 63) : (UInt64.ofNat n).toInt64.toInt = n := by
  have hbv : (UInt64.ofNat n).toInt64.toInt = (BitVec.ofNat 64 n).toInt := rfl
  rw [hbv, BitVec.toInt_eq_toNat_of_lt (by simp; omega), BitVec.toNat_ofNat,
    Nat.mod_eq_of_lt (by omega)]

/-- A counter that holds `t` holds `t'` after the delta between two of its shares. -/
lemma toNat_account {n : UInt64} {t t' new old : ℕ} (hn : n.toNat = t) (hsum : t' + old = t + new)
    (ht : t < 2 ^ 63) (ht' : t' < 2 ^ 63) (hold : old ≤ t) (hnew : new ≤ t') :
    (saturatingAddSigned n ((UInt64.ofNat new).toInt64 - (UInt64.ofNat old).toInt64)).toNat
      = t' := by
  have hnew63 : new < 2 ^ 63 := lt_of_le_of_lt hnew ht'
  have hold63 : old < 2 ^ 63 := lt_of_le_of_lt hold ht
  have hdiff : ((UInt64.ofNat new).toInt64 - (UInt64.ofNat old).toInt64).toInt
      = (new : ℤ) - old := by
    rw [Int64.toInt_sub, toInt_toInt64_ofNat hnew63, toInt_toInt64_ofNat hold63,
      Int.bmod_eq_of_le (by omega) (by omega)]
  have h := toNat_saturatingAddSigned (n := n)
    (d := (UInt64.ofNat new).toInt64 - (UInt64.ofNat old).toInt64) (by omega) (by omega)
  omega

/-- The counters of a guard. -/
def PartitionGuard.counters (g : PartitionGuard) : ℕ × ℕ × ℕ :=
  (g.inlineBytes.toNat, g.inlineCount.toNat, g.totalBytes.toNat)

/-- All three sums are below `2⁶³`. -/
def Small (t : ℕ × ℕ × ℕ) : Prop := t.1 < 2 ^ 63 ∧ t.2.1 < 2 ^ 63 ∧ t.2.2 < 2 ^ 63

instance (t : ℕ × ℕ × ℕ) : Decidable (Small t) := instDecidableAnd

/-- **Small counters follow their account.** -/
theorem Balanced.account_eq {ns : Namespace} {p : Bytes → Bool} {store store' : MetaStore}
    {delta : GuardDelta} {g : PartitionGuard} (h : Balanced ns p store store' delta)
    (hg : g.counters = accountOf ns p store) (hsmall : Small (accountOf ns p store))
    (hsmall' : Small (accountOf ns p store')) :
    (g.account delta).counters = accountOf ns p store' := by
  obtain ⟨new, old, rfl, hsum, hold, hnew⟩ := h
  obtain ⟨g1, g2, g3⟩ : g.inlineBytes.toNat = (accountOf ns p store).1
      ∧ g.inlineCount.toNat = (accountOf ns p store).2.1
      ∧ g.totalBytes.toNat = (accountOf ns p store).2.2 := by
    rw [← hg]
    exact ⟨rfl, rfl, rfl⟩
  refine Prod.ext ?_ (Prod.ext ?_ ?_)
  · exact toNat_account g1 (congrArg Prod.fst hsum) hsmall.1 hsmall'.1 hold.1 hnew.1
  · exact toNat_account g2 (congrArg (fun t => t.2.1) hsum) hsmall.2.1 hsmall'.2.1 hold.2.1
      hnew.2.1
  · exact toNat_account g3 (congrArg (fun t => t.2.2) hsum) hsmall.2.2 hsmall'.2.2 hold.2.2
      hnew.2.2

/-! ## Balanced batches -/

section Writes

variable {ns : Namespace} {p : Bytes → Bool} {store store' : MetaStore} {delta : GuardDelta}
  {ops : List StoreOp}

/-- The account of a store, key by key. -/
lemma accountOf_congr {q : Bytes → Bool}
    (h : ∀ key, (if p key then ns.accountAt (store.get ns.primaryCf key) else 0)
      = if q key then ns.accountAt (store'.get ns.primaryCf key) else 0) :
    accountOf ns p store = accountOf ns q store' := by
  refine OrdMap.total_congr fun key => ?_
  have hshare : ∀ (p : Bytes → Bool) (o : Option MetaValue),
      (o.map fun v => if p key then ns.account v else 0).getD 0
        = if p key then ns.accountAt o else 0 := by
    intro p o
    cases o <;> cases p key <;> rfl
  rw [hshare, hshare]
  exact h key

lemma balanced_of_eq (h : accountOf ns p store' = accountOf ns p store)
    (hdelta : delta = .zero) : Balanced ns p store store' delta :=
  ⟨0, 0, hdelta, by rw [h], by simp, by simp⟩

/-- One write under a counted key trades accounts. -/
lemma accountOf_write (ns : Namespace) (store store' : MetaStore) {key : Bytes}
    {o : Option MetaValue} (hp : p key = true)
    (hget : ∀ key', ns.accountAt (store'.get ns.primaryCf key')
      = ns.accountAt (((store ns.primaryCf).write (key, o)).get key')) :
    accountOf ns p store' + ns.accountAt (store.get ns.primaryCf key)
        = accountOf ns p store + ns.accountAt o
      ∧ ns.accountAt (store.get ns.primaryCf key) ≤ accountOf ns p store
      ∧ ns.accountAt o ≤ accountOf ns p store' := by
  have hshare : ∀ o : Option MetaValue,
      (o.map fun v => if p key then ns.account v else 0).getD 0 = ns.accountAt o := by
    intro o
    cases o <;> simp [Namespace.accountAt, hp]
  let written : MetaStore := fun _ => (store ns.primaryCf).write (key, o)
  have hcongr : accountOf ns p store' = accountOf ns p written := by
    refine accountOf_congr fun key' => ?_
    rw [hget]
    rfl
  have htotal := (store ns.primaryCf).total_write
    (fun key v => if p key then ns.account v else 0) (key, o)
  have hold := (store ns.primaryCf).share_le_total
    (fun key v => if p key then ns.account v else 0) key
  have hnew := ((store ns.primaryCf).write (key, o)).share_le_total
    (fun key v => if p key then ns.account v else 0) key
  rw [OrdMap.get_write, if_pos rfl] at hnew
  simp only [hshare] at htotal hold hnew
  rw [hcongr]
  exact ⟨htotal, hold, hnew⟩

lemma balanced_of_write {key : Bytes} {o : Option MetaValue} (hp : p key = true)
    (hget : ∀ key', ns.accountAt (store'.get ns.primaryCf key')
      = ns.accountAt (((store ns.primaryCf).write (key, o)).get key'))
    (hdelta : delta = .between (ns.accountAt o) (ns.accountAt (store.get ns.primaryCf key))) :
    Balanced ns p store store' delta :=
  ⟨_, _, hdelta, accountOf_write ns store store' hp hget⟩

end Writes

/-- The account of a content as the guard's numbers. -/
lemma ContentHead.ofNat_account (content : ContentHead) (size : UInt64) :
    UInt64.ofNat (content.account size).1 = content.inlineAccount.1
      ∧ UInt64.ofNat (content.account size).2.1 = content.inlineAccount.2
      ∧ UInt64.ofNat (content.account size).2.2 = size := by
  cases content <;> simp [account, inlineAccount]

/-! ## Flat ops -/

namespace Flat

variable {store : MetaStore} {b : BucketId} {k : Bytes} {seq : UInt64} {ts : Int64}

lemma pack_size (head : ObjectHead) : (pack head).1.size = head.size := by
  unfold pack
  cases head.content <;> rfl

lemma captureOld_account (store : MetaStore) (b : BucketId) (k : Bytes) (seq : UInt64) (ts : Int64) :
    UInt64.ofNat (Namespace.Flat.accountAt (store.get .Meta (headKey b k))).1
        = (captureOld store b k seq ts).account.1
      ∧ UInt64.ofNat (Namespace.Flat.accountAt (store.get .Meta (headKey b k))).2.1
        = (captureOld store b k seq ts).account.2.1
      ∧ UInt64.ofNat (Namespace.Flat.accountAt (store.get .Meta (headKey b k))).2.2
        = (captureOld store b k seq ts).account.2.2 := by
  unfold captureOld
  cases hget : store.get .Meta (headKey b k) with
  | none => simp [Namespace.accountAt]
  | some v =>
    cases hhead : v.head? with
    | none => simp [Namespace.accountAt, Namespace.account, hhead]
    | some head =>
      simpa [Namespace.accountAt, Namespace.account, hhead] using
        head.content.ofNat_account head.size

lemma packed_account (head : ObjectHead) :
    Namespace.Flat.accountAt (some (.Head (pack head).1))
      = (pack head).1.content.account head.size := by
  simp [Namespace.accountAt, Namespace.account, MetaValue.head?, pack_size]

/-- **A flat op reports what it changes.** -/
theorem apply_balanced {blake3 : Bytes → BitVec 256} {op : FlatOp} {out : ApplyOutcome}
    {p : Bytes → Bool} (hp : p (headKey op.bucket op.key) = true)
    (h : apply blake3 store op seq = .ok out) :
    Balanced .Flat p store (store.applyBatch out.ops) out.delta := by
  have hnone : KvStore.on .Meta out.ops = [] → out.delta = .zero →
      Balanced .Flat p store (store.applyBatch out.ops) out.delta := by
    intro hon hdelta
    refine balanced_of_eq ?_ hdelta
    rw [accountOf, accountOf, Namespace.primaryCf, KvStore.applyBatch_of_on_eq_nil hon]
  have hwrite : ∀ o : Option MetaValue, KvStore.on .Meta out.ops = [(headKey op.bucket op.key, o)] →
      out.delta = .between (Namespace.Flat.accountAt o)
        (Namespace.Flat.accountAt (store.get .Meta (headKey op.bucket op.key))) →
      Balanced .Flat p store (store.applyBatch out.ops) out.delta := by
    intro o hon hdelta
    refine balanced_of_write hp (fun key' => ?_) hdelta
    rw [MetaStore.get, Namespace.primaryCf, KvStore.applyBatch_cf, hon]
    rfl
  cases op with
  | Put b k head ts =>
    obtain rfl := Except.ok.inj h
    obtain ⟨h1, h2, h3⟩ := captureOld_account store b k seq ts
    obtain ⟨n1, n2, n3⟩ := (pack head).1.content.ofNat_account head.size
    refine hwrite _ (replaces_put ..).heads ?_
    simp only [Option.map_some, packed_account, GuardDelta.between, FlatOp.bucket, FlatOp.key, h1,
      h2, h3, n1, n2, n3]
    rfl
  | Delete b k ts =>
    obtain rfl := Except.ok.inj h
    obtain ⟨h1, h2, h3⟩ := captureOld_account store b k seq ts
    refine hwrite _ (replaces_delete ..).heads ?_
    simp only [Namespace.accountAt, GuardDelta.between, FlatOp.bucket, FlatOp.key] at h1 h2 h3 ⊢
    simp only [h1, h2, h3]
    simp [applyDelete]
  | CreateMultipart b k u ts =>
    obtain rfl := Except.ok.inj h
    rcases applyCreate_cases store b k u ts with hc | ⟨-, hc⟩
    · exact hnone (by rw [hc]; rfl) (by rw [hc]; rfl)
    · exact hnone (by rw [hc]; rfl) (by rw [hc]; rfl)
  | PutPart b k u n part ts =>
    obtain rfl := Except.ok.inj h
    refine hnone ?_ ?_
    · rcases applyPutPart_cases store b k u n part seq ts with hc | ⟨-, -, hc⟩ <;> rw [hc]
      · rfl
      · simp
    · unfold applyPutPart
      cases store.get .Upload (uploadKey b k u 0) <;> rfl
  | CompleteMultipart b k u parts ts =>
    rcases applyComplete_cases h with ⟨reason, rfl⟩ | ⟨found, size, -, -, -, ⟨-, hdelta⟩, hops⟩
    · exact hnone rfl rfl
    · obtain ⟨h1, h2, h3⟩ := captureOld_account store b k seq ts
      let slices := found.flatMap PartMeta.slices
      refine hwrite _ (replaces_complete hops).heads ?_
      have hnew : (pack (completedHead blake3 parts size slices ts)).1.content.account
          (completedHead blake3 parts size slices ts).size = (0, 0, size.toNat) := rfl
      rw [hdelta, Option.map_some, packed_account, hnew]
      simp only [GuardDelta.between, FlatOp.bucket, FlatOp.key, h1, h2, h3]
      simp
  | AbortMultipart b k u ts =>
    obtain rfl := Except.ok.inj h
    refine hnone ?_ ?_
    · rw [on_applyAbort]
      simp
    · unfold applyAbort
      cases store.get .Upload (uploadKey b k u 0) <;> rfl

end Flat

/-! ## Hierarchical ops -/

/-- The files a hierarchical op replaces or removes. -/
def HierOp.replaces : HierOp → List Bytes
  | Write b i n .. | Unlink b i n _ => [Hier.fsKey b i n]
  | RenameSameDir b i source target _ => [Hier.fsKey b i source, Hier.fsKey b i target]
  | _ => []

/-- No file sits at the empty name of a directory that the op removes. -/
def HierOp.sparesFiles (op : HierOp) (store : MetaStore) : Prop :=
  match op with
  | RmdirSentinel b i _ => Hier.fileAt store b i Hier.SENTINEL_NAME = none
  | _ => True

instance (op : HierOp) (store : MetaStore) : Decidable (op.sparesFiles store) := by
  unfold HierOp.sparesFiles
  cases op <;> infer_instance

namespace Hier

variable {store : MetaStore} {b : BucketId} {i : UInt64} {n : Bytes} {seq : UInt64} {ts : Int64}
  {p : Bytes → Bool} {ops bump : List StoreOp} {delta : GuardDelta}

lemma packFile_size (file : FileRecord) : (packFile file).1.size = file.size := by
  unfold packFile
  cases file.content <;> rfl

lemma accountAt_eq (o : Option MetaValue) :
    Namespace.Hier.accountAt o = ((fileOf o).map FileRecord.account).getD 0 := by
  cases o <;> rfl

lemma captureOldFile_account (store : MetaStore) (b : BucketId) (i : UInt64) (n : Bytes)
    (seq : UInt64) (ts : Int64) :
    UInt64.ofNat (Namespace.Hier.accountAt (store.get .Fs (fsKey b i n))).1
        = (captureOldFile store b i n seq ts).2.1
      ∧ UInt64.ofNat (Namespace.Hier.accountAt (store.get .Fs (fsKey b i n))).2.1
        = (captureOldFile store b i n seq ts).2.2.1
      ∧ UInt64.ofNat (Namespace.Hier.accountAt (store.get .Fs (fsKey b i n))).2.2
        = (captureOldFile store b i n seq ts).2.2.2 := by
  unfold captureOldFile
  cases hget : store.get .Fs (fsKey b i n) with
  | none => simp [Namespace.accountAt]
  | some v =>
    rw [accountAt_eq, fileOf, Option.bind_some]
    cases hfs : v.fs? with
    | none => simp [hfs]
    | some record =>
      cases record with
      | File file =>
        simpa [hfs, FsRecord.file?, FileRecord.account] using
          file.content.ofNat_account file.size
      | Dir d => simp [hfs, FsRecord.file?]
      | Sentinel d => simp [hfs, FsRecord.file?]

lemma packed_account (file : FileRecord) :
    Namespace.Hier.accountAt (some (.Fs (.File (packFile file).1)))
      = (packFile file).1.content.account file.size := by
  simp [Namespace.accountAt, Namespace.account, fileOf, MetaValue.fs?, FsRecord.file?,
    FileRecord.account, packFile_size]

lemma packFile_account (file : FileRecord) :
    (packFile file).1.content.account file.size = file.account := by
  unfold packFile FileRecord.account
  cases file.content <;> rfl

lemma writeDelta_eq (file : FileRecord) :
    writeDelta store b i n seq ts file
      = .between (Namespace.Hier.accountAt (some (.Fs (.File (packFile file).1))))
          (Namespace.Hier.accountAt (store.get .Fs (fsKey b i n))) := by
  obtain ⟨h1, h2, h3⟩ := captureOldFile_account store b i n seq ts
  obtain ⟨n1, n2, n3⟩ := (packFile file).1.content.ofNat_account file.size
  simp only [packed_account, GuardDelta.between, h1, h2, h3, n1, n2, n3]
  rfl

lemma dropDelta_eq :
    dropDelta store b i n seq ts
      = .between 0 (Namespace.Hier.accountAt (store.get .Fs (fsKey b i n))) := by
  obtain ⟨h1, h2, h3⟩ := captureOldFile_account store b i n seq ts
  simp only [GuardDelta.between, h1, h2, h3]
  simp [dropDelta]

lemma balanced_replace {d : Int64} {o : Option FileRecord} (hp : p (fsKey b i n) = true)
    (hr : Replaces store b i n o seq d ts ops)
    (hdelta : delta = .between
      (Namespace.Hier.accountAt (o.map fun f => .Fs (.File (packFile f).1)))
      (Namespace.Hier.accountAt (store.get .Fs (fsKey b i n)))) :
    Balanced .Hier p store (store.applyBatch ops) delta := by
  refine balanced_of_write hp (fun key' => ?_) hdelta
  rw [accountAt_eq, accountAt_eq, MetaStore.get, Namespace.primaryCf,
    fileOf_bump [_] rfl hr.fs fun hne => hr.sentinel_notMem hne _]
  rfl

lemma balanced_rename {d : Int64} {source target : Bytes} {f : FileRecord}
    (hps : p (fsKey b i source) = true) (hpt : p (fsKey b i target) = true)
    (hm : Moves store b i source target f seq d ts ops)
    (hdelta : delta = .between 0 (Namespace.Hier.accountAt (store.get .Fs (fsKey b i target)))) :
    Balanced .Hier p store (store.applyBatch ops) delta := by
  let o : Option MetaValue := some (.Fs (.File (packFile { f with mtime := ts }).1))
  have ho : Namespace.Hier.accountAt o = f.account := by
    rw [packed_account { f with mtime := ts }, packFile_account]
    rfl
  -- first the target is replaced, then the source removed
  let moved : MetaStore := fun _ => (store .Fs).write (fsKey b i target, o)
  obtain ⟨htarget, hle, -⟩ := accountOf_write .Hier store moved hpt fun key' => rfl
  obtain ⟨hremove, -, -⟩ := accountOf_write .Hier moved (store.applyBatch ops) (o := none) hps
    fun key' => by
      rw [accountAt_eq, accountAt_eq, MetaStore.get, Namespace.primaryCf,
        fileOf_bump _ rfl hm.fs fun hne => hm.sentinel_notMem hne _ _]
      rfl
  have hread : moved.get Namespace.Hier.primaryCf (fsKey b i source)
      = some (.Fs (.File f)) := by
    have hne : fsKey b i target ≠ fsKey b i source := by
      rw [Ne, fsKey_inj]
      exact fun h => hm.ne h.2.2.symm
    exact (OrdMap.get_write _ _ _).trans ((if_neg hne).trans hm.moved)
  have hmoved : Namespace.Hier.accountAt (moved.get Namespace.Hier.primaryCf (fsKey b i source))
      = f.account := by
    rw [hread]
    rfl
  refine ⟨_, _, hdelta, ?_, hle, zero_le⟩
  have hnil : Namespace.Hier.accountAt none = 0 := rfl
  rw [hmoved, hnil, add_zero] at hremove
  rw [ho, ← hremove, add_right_comm] at htarget
  rw [add_zero]
  exact add_right_cancel htarget

/-- **A hierarchical op reports what it changes.** -/
theorem apply_balanced {op : HierOp} {ino ino' : InoAllocator} {out : ApplyOutcome}
    (hp : ∀ key ∈ op.replaces, p key = true) (hspare : op.sparesFiles store)
    (h : apply store op seq ino = .ok (out, ino')) :
    Balanced .Hier p store (store.applyBatch out.ops) out.delta := by
  have hnone : out.ops = [] → out.delta = .zero →
      Balanced .Hier p store (store.applyBatch out.ops) out.delta :=
    fun hops hdelta => balanced_of_eq (by rw [hops]; rfl) hdelta
  have hquiet : op.isDirectory = true → out.delta = .zero →
      Balanced .Hier p store (store.applyBatch out.ops) out.delta := by
    intro hdir hdelta
    have hq : IsQuiet store out.ops := by
      refine apply_isQuiet hdir (fun b i ts hop => ?_) h
      rw [hop] at hspare
      exact hspare
    refine balanced_of_eq (accountOf_congr fun key => ?_) hdelta
    rw [accountAt_eq, accountAt_eq, MetaStore.get, Namespace.primaryCf, hq.fileOf_eq]
    rfl
  cases op with
  | Write b i n size etag content http ts =>
    rcases applyWrite_cases h with
      ⟨reason, rfl, -⟩ | ⟨fileIno, d, bump, -, hread, hb, ⟨-, hdelta⟩, hops⟩
    · exact hnone rfl rfl
    · rw [writeDelta_eq] at hdelta
      refine balanced_replace (hp _ (by simp [HierOp.replaces]))
        (replaces_write seq ?_ hb hops) hdelta
      rcases hread with ⟨f, hf, -⟩ | ⟨hnone, -⟩
      · exact Or.inr ⟨f, hf⟩
      · exact Or.inl hnone
  | Unlink b i n ts =>
    obtain ⟨ho, rfl⟩ := ok_of_map h
    rcases applyUnlink_cases ho with
      ⟨reason, rfl⟩ | ⟨-, rfl⟩ | ⟨f, bump, hf, hb, ⟨-, hdelta⟩, hops⟩
    · exact hnone rfl rfl
    · exact hnone rfl rfl
    · rw [dropDelta_eq] at hdelta
      exact balanced_replace (hp _ (by simp [HierOp.replaces]))
        (replaces_unlink seq hf hb hops) hdelta
  | RenameSameDir b i source target ts =>
    obtain ⟨ho, rfl⟩ := ok_of_map h
    rcases applyRenameSameDir_cases ho with
      ⟨reason, rfl⟩ | ⟨-, rfl⟩ | ⟨f, d, bump, hst, hf, hold, -, hb, ⟨-, hdelta⟩, hops⟩
    · exact hnone rfl rfl
    · exact hnone rfl rfl
    · rw [dropDelta_eq] at hdelta
      exact balanced_rename (hp _ (by simp [HierOp.replaces])) (hp _ (by simp [HierOp.replaces]))
        (moves_rename seq hst hf hold hb hops) hdelta
  | MkdirSentinel b i n ts =>
    obtain ⟨child, -, ⟨-, hdelta⟩, -⟩ := applyMkdirSentinel_cases h
    exact hquiet rfl hdelta
  | MkdirLink b i n child ts =>
    obtain ⟨ho, rfl⟩ := ok_of_map h
    rcases applyMkdirLink_cases ho with ⟨reason, rfl⟩ | rfl | ⟨bump, -, -, -, ⟨-, hdelta⟩, -⟩
    · exact hnone rfl rfl
    · exact hnone rfl rfl
    · exact hquiet rfl hdelta
  | RmdirUnlink b i n ts =>
    obtain ⟨ho, rfl⟩ := ok_of_map h
    rcases applyRmdirUnlink_cases ho with ⟨reason, rfl⟩ | rfl | ⟨d, bump, -, -, ⟨-, hdelta⟩, -⟩
    · exact hnone rfl rfl
    · exact hnone rfl rfl
    · exact hquiet rfl hdelta
  | RmdirSentinel b i ts =>
    refine hquiet rfl ?_
    obtain ⟨-, ⟨reason, rfl⟩ | rfl | ⟨-, -, rfl⟩⟩ := applyRmdirSentinel_cases h <;> rfl

end Hier

end Epoch
