import Epoch.Meta.Raft.Node

/-!
# Exact directory counts

A directory's sentinel counts the records beside it.  Every op that adds or removes a name adjusts
the count of the sentinel it finds, and nothing else writes under a directory, so a count that
starts right stays right (`sentinel_count_exact`).

Where it can start wrong is `MkdirSentinel`: it writes an exact zero without looking whether the
inode has children.  That inode is new to the allocator, but not always to the store, since names
may be written under the root's inode before anything has made a root
(`sentinel_count_misses_child`).
-/

namespace Epoch

namespace Hier

/-! ## Records under a directory -/

/-- The key belongs to a name of the directory, other than its sentinel's. -/
def isChildKey (b : BucketId) (i : UInt64) (key : Bytes) : Bool :=
  (fsKey b i SENTINEL_NAME).isPrefixOf key && key != fsKey b i SENTINEL_NAME

/-- The number of records stored under a directory beside its sentinel. -/
def recordsUnder (fs : OrdMap Bytes MetaValue) (b : BucketId) (i : UInt64) : ℕ :=
  fs.toList.countP fun e => isChildKey b i e.1

lemma fsKey_eq_append (b : BucketId) (i : UInt64) (n : Bytes) :
    fsKey b i n = fsKey b i SENTINEL_NAME ++ n := by
  simp [fsKey, hierKey, SENTINEL_NAME]

@[simp] lemma isChildKey_fsKey (b b' : BucketId) (i i' : UInt64) (n : Bytes) :
    isChildKey b i (fsKey b' i' n) = decide (b = b' ∧ i = i' ∧ n ≠ []) := by
  have hpre : fsKey b i SENTINEL_NAME <+: fsKey b' i' n ↔ b = b' ∧ i = i' := by
    rw [fsKey_eq_append b' i' n]
    constructor
    · intro h
      have hlen : (fsKey b i SENTINEL_NAME).length = (fsKey b' i' SENTINEL_NAME).length := by
        simp [fsKey, hierKey, SENTINEL_NAME]
      have hle := List.prefix_of_prefix_length_le h (List.prefix_append _ _) hlen.le
      obtain ⟨hb, hi, -⟩ := fsKey_inj.mp (hle.eq_of_length hlen)
      exact ⟨hb, hi⟩
    · rintro ⟨rfl, rfl⟩
      exact List.prefix_append _ _
  rw [isChildKey, Bool.eq_iff_iff, Bool.and_eq_true, List.isPrefixOf_iff_prefix, hpre]
  simp only [bne_iff_ne, ne_eq, fsKey_inj, SENTINEL_NAME, decide_eq_true_eq]
  constructor
  · rintro ⟨⟨rfl, rfl⟩, hn⟩
    exact ⟨rfl, rfl, fun h => hn ⟨rfl, rfl, h⟩⟩
  · rintro ⟨rfl, rfl, hn⟩
    exact ⟨⟨rfl, rfl⟩, fun h => hn h.2.2⟩

section Count

variable (fs : OrdMap Bytes MetaValue) {b : BucketId} {i : UInt64}

lemma recordsUnder_eq_total (b : BucketId) (i : UInt64) :
    recordsUnder fs b i = fs.total fun key _ => if isChildKey b i key then 1 else 0 := by
  unfold recordsUnder OrdMap.total
  induction fs.toList with
  | nil => rfl
  | cons e l ih => rw [List.countP_cons, ih, List.map_cons, List.sum_cons, add_comm]

/-- A write to a name counts by whether the name was there, and is there afterwards. -/
lemma recordsUnder_write (b : BucketId) (i : UInt64) {n : Bytes} (hn : n ≠ [])
    (o : Option MetaValue) :
    recordsUnder (fs.write (fsKey b i n, o)) b i + (fs.get (fsKey b i n)).elim 0 (fun _ => 1)
      = recordsUnder fs b i + o.elim 0 fun _ => 1 := by
  have h := fs.total_write (fun key _ => if isChildKey b i key then 1 else 0) (fsKey b i n, o)
  have hshare : ∀ o : Option MetaValue,
      (o.map fun _ => if isChildKey b i (fsKey b i n) then 1 else 0).getD 0
        = o.elim 0 fun _ => 1 := by
    intro o
    cases o <;> simp [hn]
  rw [hshare, hshare] at h
  rwa [recordsUnder_eq_total, recordsUnder_eq_total]

/-- Writes elsewhere do not count. -/
lemma recordsUnder_writeAll_of_other {ws : List (Bytes × Option MetaValue)}
    (h : ∀ w ∈ ws, isChildKey b i w.1 = false) :
    recordsUnder (fs.writeAll ws) b i = recordsUnder fs b i := by
  rw [recordsUnder_eq_total, recordsUnder_eq_total]
  refine OrdMap.total_writeAll_of_eq_zero _ _ fun w hw _ => ?_
  rw [h w hw]
  rfl

end Count

/-! ## One op -/

/-- **Exact counts are exact.** -/
def CountsExact (fs : OrdMap Bytes MetaValue) : Prop :=
  ∀ b i d n, fs.get (fsKey b i SENTINEL_NAME) = some (.Fs (.Sentinel d)) →
    d.entryCount = .Exact n → n.toNat = recordsUnder fs b i

/-- Sentinels stand at empty names. -/
def SentinelNames (fs : OrdMap Bytes MetaValue) : Prop :=
  ∀ b i n d, fs.get (fsKey b i n) = some (.Fs (.Sentinel d)) → n = SENTINEL_NAME

variable {op : HierOp} {ino ino' : InoAllocator} {ws : List (Bytes × Option MetaValue)} {n : Bytes}
  {o old : Option MetaValue}

lemma RecordEffect.sentinelNames {store : MetaStore} (hop : RecordEffect store ino op ws ino')
    (h : SentinelNames (store .Fs)) : SentinelNames ((store .Fs).writeAll ws) := by
  intro b i n d hget
  rcases OrdMap.get_writeAll_eq_some hget with hmem | hold
  · rcases hop.sentinel_put hmem with ⟨b', i', -, -, -, hkey, -⟩ | ⟨b', -, -, -, i', -, -, hkey, -⟩ <;>
      exact (fsKey_inj.mp hkey).2.2
  · exact h b i n d hold

/-- The op's condition: an inode that gets a new sentinel has no children yet, and no directory
grows past the counter's maximum. -/
def keepsCount (store : MetaStore) (ino : InoAllocator) : HierOp → Prop
  | .MkdirSentinel b _ _ _ => ∀ child ∈ composeIno ino.tag ino.next,
      store.get .Fs (fsKey b child SENTINEL_NAME) = none → recordsUnder (store .Fs) b child = 0
  | .Write b i .. | .MkdirLink b i .. => recordsUnder (store .Fs) b i < 2 ^ 64 - 1
  | _ => True

instance (store : MetaStore) (ino : InoAllocator) :
    (op : HierOp) → Decidable (keepsCount store ino op)
  | .MkdirSentinel .. => Option.decidableForallMem _
  | .Write .. | .MkdirLink .. => inferInstanceAs (Decidable (_ < _))
  | .Unlink .. | .RmdirUnlink .. | .RmdirSentinel .. | .RenameSameDir .. =>
    inferInstanceAs (Decidable True)

variable {store : MetaStore} {b : BucketId} {i : UInt64} {delta ts : Int64}

/-- **The adjustment is right.**  Writes to names of one directory, followed by a bump by the number
of names they add, keep counts exact. -/
lemma CountsExact.adjust (h : CountsExact (store .Fs)) (ws : List (Bytes × Option MetaValue))
    (hdir : ∀ w ∈ ws, ∃ n, w.1 = fsKey b i n)
    (hvalue : ∀ w ∈ ws, ∀ d, w.2 ≠ some (.Fs (.Sentinel d)))
    (hcount : ∀ d, store.get .Fs (fsKey b i SENTINEL_NAME) = some (.Fs (.Sentinel d)) →
      (recordsUnder ((store .Fs).writeAll ws) b i : ℤ) = recordsUnder (store .Fs) b i + delta.toInt
        ∧ (0 < delta.toInt → recordsUnder ((store .Fs).writeAll ws) b i < 2 ^ 64)) :
    CountsExact ((store .Fs).writeAll (ws ++ bumpWrites store b i delta ts)) := by
  intro b' i' d n hget hn
  by_cases hsame : b' = b ∧ i' = i
  · obtain ⟨rfl, rfl⟩ := hsame
    by_cases hs : ∃ d₀, store.get .Fs (fsKey b' i' SENTINEL_NAME) = some (.Fs (.Sentinel d₀))
    · obtain ⟨d₀, hd₀⟩ := hs
      obtain ⟨hadd, hlt⟩ := hcount d₀ hd₀
      rw [bumpWrites_of_sentinel delta ts hd₀, OrdMap.writeAll_append] at hget ⊢
      rw [recordsUnder_writeAll_of_other _ (by simp [SENTINEL_NAME])]
      obtain rfl : bumped d₀ delta ts = d := by simpa [OrdMap.writeAll_cons] using hget
      cases hc : d₀.entryCount with
      | Unknown => simp [bumped, hc] at hn
      | Exact n₀ =>
        obtain rfl : saturatingAddSigned n₀ delta = n := by simpa [bumped, hc] using hn
        have hn₀ := h _ _ d₀ n₀ hd₀ hc
        have hn₀lt := n₀.toNat_lt
        have hmax : (n₀.toNat : ℤ) + delta.toInt < 2 ^ 64 := by
          by_cases hpos : 0 < delta.toInt
          · have := hlt hpos
            omega
          · omega
        have hsum := toNat_saturatingAddSigned (n := n₀) (d := delta) (by omega) hmax
        omega
    · -- without a sentinel there is nothing to adjust, and the writes store none
      rw [bumpWrites_eq_nil delta ts (not_exists.mp hs), List.append_nil] at hget
      rcases OrdMap.get_writeAll_eq_some hget with hmem | hold
      · exact absurd rfl (hvalue _ hmem d)
      · exact absurd ⟨d, hold⟩ hs
  · have hkeys : ∀ w ∈ ws ++ bumpWrites store b i delta ts, ∃ n, w.1 = fsKey b i n := by
      intro w hw
      rcases List.mem_append.mp hw with hw | hw
      · exact hdir w hw
      · obtain ⟨-, -, rfl⟩ := mem_bumpWrites hw
        exact ⟨_, rfl⟩
    rw [recordsUnder_writeAll_of_other _ fun w hw => by
      obtain ⟨n', hn'⟩ := hkeys w hw
      simpa [hn'] using fun hb hi => absurd ⟨hb, hi⟩ hsame]
    refine h b' i' d n ?_ hn
    rw [← hget]
    refine (OrdMap.get_writeAll_of_notMem fun hmem => ?_).symm
    obtain ⟨w, hw, hkey⟩ := List.mem_map.mp hmem
    obtain ⟨n', hn'⟩ := hkeys w hw
    obtain ⟨hb, hi, -⟩ := fsKey_inj.mp (hn'.symm.trans hkey)
    exact hsame ⟨hb.symm, hi.symm⟩

/-- A name that holds a file, a directory or nothing is not the sentinel's, if there is one. -/
lemma ne_nil_of_sentinel {d : DirRecord}
    (hd : store.get .Fs (fsKey b i SENTINEL_NAME) = some (.Fs (.Sentinel d)))
    (hold : store.get .Fs (fsKey b i n) = o) (ho : ∀ d, o ≠ some (.Fs (.Sentinel d))) : n ≠ [] := by
  rintro rfl
  exact ho d (hold.symm.trans hd)

/-- The case of one name. -/
lemma CountsExact.adjust_name (h : CountsExact (store .Fs))
    (hold : store.get .Fs (fsKey b i n) = old)
    (hname : n ≠ [] ∨ ∀ d, old ≠ some (.Fs (.Sentinel d)))
    (ho : ∀ d, o ≠ some (.Fs (.Sentinel d)))
    (hdelta : delta.toInt = o.elim 0 (fun _ => 1) - old.elim 0 fun _ => 1)
    (hmax : 0 < delta.toInt → recordsUnder (store .Fs) b i < 2 ^ 64 - 1) :
    CountsExact ((store .Fs).writeAll ((fsKey b i n, o) :: bumpWrites store b i delta ts)) := by
  refine h.adjust [(fsKey b i n, o)] (by simp) (by simpa using ho) fun d hd => ?_
  have hn : n ≠ [] := hname.elim id (ne_nil_of_sentinel hd hold)
  have hwrite := recordsUnder_write (store .Fs) b i hn o
  rw [show (store .Fs).get (fsKey b i n) = old from hold] at hwrite
  rw [OrdMap.writeAll_cons, OrdMap.writeAll_nil]
  cases o <;> cases old <;> simp only [Option.elim_none, Option.elim_some] at hdelta hwrite <;>
    constructor <;> omega

/-- The case of a rename: the source's name goes, and the target's is there afterwards. -/
lemma CountsExact.adjust_rename (h : CountsExact (store .Fs)) {source target : Bytes}
    {f f' : FileRecord} (hst : source ≠ target)
    (hsource : store.get .Fs (fsKey b i source) = some (.Fs (.File f)))
    (htarget : store.get .Fs (fsKey b i target) = old)
    (hold : ∀ d, old ≠ some (.Fs (.Sentinel d))) (hdelta : delta.toInt = -old.elim 0 fun _ => 1) :
    CountsExact ((store .Fs).writeAll ((fsKey b i target, some (.Fs (.File f')))
      :: (fsKey b i source, none) :: bumpWrites store b i delta ts)) := by
  refine h.adjust [(fsKey b i target, some (.Fs (.File f'))), (fsKey b i source, none)]
    (by simp) (by simp) fun d hd => ?_
  have hput := recordsUnder_write (store .Fs) b i (ne_nil_of_sentinel hd htarget hold)
    (some (.Fs (.File f')))
  have hdel := recordsUnder_write ((store .Fs).write (fsKey b i target, some (.Fs (.File f')))) b i
    (ne_nil_of_sentinel hd hsource (by simp)) none
  have hstill : ((store .Fs).write (fsKey b i target, some (.Fs (.File f')))).get
      (fsKey b i source) = some (.Fs (.File f)) := by
    rw [OrdMap.get_write, if_neg (by simpa using Ne.symm hst)]
    exact hsource
  rw [show (store .Fs).get (fsKey b i target) = old from htarget] at hput
  rw [hstill] at hdel
  rw [OrdMap.writeAll_cons, OrdMap.writeAll_cons, OrdMap.writeAll_nil]
  cases old <;> simp only [Option.elim_none, Option.elim_some] at hdelta hput hdel <;>
    constructor <;> omega

/-- **One op keeps counts exact**, if it meets its condition. -/
lemma RecordEffect.countsExact (hop : RecordEffect store ino op ws ino')
    (h : CountsExact (store .Fs)) (hnames : SentinelNames (store .Fs))
    (hkeep : keepsCount store ino op) : CountsExact ((store .Fs).writeAll ws) := by
  have hneg : 0 < (-1 : Int64).toInt → False := by decide
  cases hop with
  | nothing => exact h
  | reminted hmint hold => exact h
  | @sentinel b i n ts child ino' hmint hold =>
    intro b' i' d count hget hn
    rw [recordsUnder_writeAll_of_other _ (by simp [SENTINEL_NAME])]
    by_cases hsame : b = b' ∧ child = i'
    · obtain ⟨rfl, rfl⟩ := hsame
      have hd : (⟨child, ts, .Exact 0, some (i, n), ts⟩ : DirRecord) = d := by
        simpa [OrdMap.writeAll_cons] using hget
      obtain rfl : 0 = count := by simpa [← hd] using hn
      exact (hkeep child (mint_eq_ok hmint).1 hold).symm
    · refine h b' i' d count ?_ hn
      simpa [OrdMap.writeAll_cons, hsame] using hget
  | create hn hold hmint =>
    exact h.adjust_name hold (Or.inl hn) (by simp) rfl fun _ => hkeep
  | overwrite hn hold =>
    exact h.adjust_name hold (Or.inl hn) (by simp) rfl (by simp)
  | unlink hold =>
    exact h.adjust_name hold (Or.inr (by simp)) (by simp) rfl fun hpos => (hneg hpos).elim
  | link hn hold =>
    have hnone := hold.resolve_right fun ⟨d, hd⟩ => hn (hnames _ _ _ d hd)
    exact h.adjust_name hnone (Or.inl hn) (by simp) rfl fun _ => hkeep
  | unlinkDir hold =>
    exact h.adjust_name hold (Or.inr (by simp)) (by simp) rfl fun hpos => (hneg hpos).elim
  | @rmdir b i ts hold hempty =>
    intro b' i' d n hget hn
    rw [recordsUnder_writeAll_of_other _ (by simp [SENTINEL_NAME])]
    by_cases hsame : b = b' ∧ i = i'
    · obtain ⟨rfl, rfl⟩ := hsame
      simp [OrdMap.writeAll_cons] at hget
    · refine h b' i' d n ?_ hn
      simpa [OrdMap.writeAll_cons, hsame] using hget
  | rename hst hsource htarget => exact h.adjust_rename hst hsource htarget (by simp) rfl
  | renameOver hst hsource htarget => exact h.adjust_rename hst hsource htarget (by simp) rfl

end Hier

/-! ## Whole runs -/

/-- The condition on an entry, in the state it is applied in. -/
def CountGuard (s : MetaStore × Machine) (a : Entry × Bool) : Prop :=
  ∀ op ∈ a.1.hierOp, Hier.keepsCount s.1 ⟨s.2.inoTag, s.2.inoNext⟩ op

instance (s : MetaStore × Machine) (a : Entry × Bool) : Decidable (CountGuard s a) :=
  inferInstanceAs (Decidable (∀ op ∈ a.1.hierOp, _))

/-- A fresh directory tree: nothing, or sentinels of empty directories. -/
def EmptyDirs (store : MetaStore) : Prop :=
  ∀ e ∈ (store .Fs).toList, ∃ b i d,
    e = (Hier.fsKey b i Hier.SENTINEL_NAME, .Fs (.Sentinel d)) ∧ d.entryCount = .Exact 0

lemma EmptyDirs.exact {store : MetaStore} (h : EmptyDirs store) :
    Hier.CountsExact (store .Fs) ∧ Hier.SentinelNames (store .Fs) := by
  have hget : ∀ {b i n d}, (store .Fs).get (Hier.fsKey b i n) = some (.Fs (.Sentinel d)) →
      n = Hier.SENTINEL_NAME ∧ d.entryCount = .Exact 0 := by
    intro b i n d hd
    obtain ⟨b', i', d', heq, hzero⟩ := h _ ((OrdMap.mem_toList_iff _ _ _).mpr hd)
    simp only [Prod.mk.injEq, Hier.fsKey_inj, MetaValue.Fs.injEq, FsRecord.Sentinel.injEq] at heq
    obtain ⟨⟨-, -, hn⟩, rfl⟩ := heq
    exact ⟨hn, hzero⟩
  refine ⟨fun b i d n hd hn => ?_, fun b i n d hd => (hget hd).1⟩
  obtain rfl : 0 = n := by simpa [(hget hd).2] using hn
  symm
  rw [Hier.recordsUnder, UInt64.toNat_zero, List.countP_eq_zero]
  intro e he
  obtain ⟨b', i', d', rfl, -⟩ := h e he
  simp [Hier.SENTINEL_NAME]

/-- **Exact directory counts.**  From a fresh tree, in every state a log reaches, a sentinel that
carries an exact count has as many records beside it. -/
theorem sentinel_count_exact (blake3 : Bytes → BitVec 256) (store : MetaStore)
    (hfresh : EmptyDirs store) (m : Machine) (log : List (Entry × Bool))
    (hraw : ∀ a ∈ log, a.1.isRaw = false)
    (hguard : Along (Machine.step blake3) CountGuard (store, m) log) :
    Hier.CountsExact ((run (Machine.step blake3) (store, m) log).1 .Fs) := by
  suffices hinv : Hier.CountsExact ((run (Machine.step blake3) (store, m) log).1 .Fs)
      ∧ Hier.SentinelNames ((run (Machine.step blake3) (store, m) log).1 .Fs) from hinv.1
  refine (hguard.and_forall hraw).invariant (P := fun s => Hier.CountsExact (s.1 .Fs)
    ∧ Hier.SentinelNames (s.1 .Fs)) ?_ hfresh.exact
  rintro s a ⟨hcount, hnames⟩ ⟨hraw, hkeep⟩
  rcases Machine.step_cases blake3 s a with ⟨hsame, -⟩ | ⟨ops, m', heff, hstep⟩
  · rw [hsame]
    exact ⟨hcount, hnames⟩
  · simp only [hstep, KvStore.applyBatch_cf]
    rcases heff.fs_share hraw a.2 with ⟨-, hnil, -⟩ | ⟨op, ino', hp, -, hop⟩
    · rw [hnil]
      exact ⟨hcount, hnames⟩
    · exact ⟨hop.countsExact hcount hnames (hkeep op hp), hop.sentinelNames hnames⟩

/-- An entry of a log that carries one op. -/
def demoHier (op : HierOp) : Entry × Bool := (⟨⟨1, 1, 1⟩, .Normal (.Hier op)⟩, true)

/-- Under a seeded root: the file `f` is written, the directory `d` linked, and `f` unlinked. -/
theorem sentinel_count_exact_demo :
    let fs := (run (Machine.step fun _ => 0) (demoRoot, demoMachine .Hier)
      [demoHier (demoWrite [0x66] 1), demoHier (.MkdirLink 1 ROOT_INO [0x64] 7 0),
        demoHier (.Unlink 1 ROOT_INO [0x66] 0)]).1 .Fs
    fs.get (Hier.fsKey 1 ROOT_INO Hier.SENTINEL_NAME)
        = some (.Fs (.Sentinel ⟨ROOT_INO, 0, .Exact 1, none, 0⟩))
      ∧ Hier.CountsExact fs := by
  have hfresh : EmptyDirs demoRoot := by
    intro e he
    obtain rfl := List.mem_singleton.mp he
    exact ⟨1, ROOT_INO, _, rfl, rfl⟩
  exact ⟨by decide +kernel, sentinel_count_exact (fun _ => 0) demoRoot hfresh (demoMachine .Hier) _
    (by decide) (by decide +kernel)⟩

/-- Nothing has made a root yet.  A file is written under the root's inode, then a directory is
made: it is given that inode, and its sentinel starts at zero beside the file. -/
theorem sentinel_count_misses_child :
    let fs := (run (Machine.step fun _ => 0) (KvStore.empty, demoMachine .Hier)
      [demoHier (demoWrite [0x66] 1), demoHier (.MkdirSentinel 1 ROOT_INO [0x64] 0)]).1 .Fs
    EmptyDirs KvStore.empty
      ∧ fs.get (Hier.fsKey 1 ROOT_INO Hier.SENTINEL_NAME)
        = some (.Fs (.Sentinel ⟨ROOT_INO, 0, .Exact 0, some (ROOT_INO, [0x64]), 0⟩))
      ∧ Hier.recordsUnder fs 1 ROOT_INO = 1 := by
  refine ⟨fun e he => ?_, by decide +kernel, by decide +kernel⟩
  cases he

end Epoch
