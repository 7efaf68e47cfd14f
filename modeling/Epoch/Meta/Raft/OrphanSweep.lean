import Epoch.Meta.Raft.Inodes

/-!
# Mkdir and the sweep of orphaned sentinels

A mkdir takes two entries: the first stores the new directory's sentinel, the second links it from
its parent.  In between the sentinel is an orphan, and one whose second entry never comes stays
one; a sweep collects such sentinels and proposes their removal.

The sweep decides on what it reads, and the removal that is committed later only looks again
whether the directory is empty.  A link that commits in between is not seen, and is left pointing
at nothing (`sweep_removes_linked_sentinel`).  `dir_entry_has_sentinel` shows that this is the only
way: as long as nothing is linked that a sweep has collected, every directory entry leads to a
sentinel.
-/

namespace Epoch

inductive MetaError
  | Store (error : MetaStoreError)
  | Raft (text : String)
deriving DecidableEq

namespace Hier

/-! ## The sweep -/

/-- `sentinel_is_orphan`: the parent link is missing or points elsewhere.  A root has no parent link
and is no orphan. -/
def sentinelIsOrphan (store : MetaStore) (bucket : BucketId) (sentinel : DirRecord) :
    Except MetaStoreError Bool :=
  match sentinel.parentLink with
  | none => .ok false
  | some (parentIno, name) =>
    match readRecord store bucket parentIno name with
    | .error e => .error e
    | .ok (some (.Dir entry)) => .ok (decide (entry.ino ≠ sentinel.ino))
    | .ok _ => .ok true

/-- One turn of the collecting loop. -/
def orphanAt (store : MetaStore) (expireBefore : Int64) (key : Bytes) (value : MetaValue) :
    Except MetaError (Option (BucketId × UInt64)) :=
  if key.length ≠ 1 + 8 + 8 then .ok none
  else
    match decode MetaValue.fs? value with
    | .error e => .error (.Store e)
    | .ok (.Sentinel sentinel) =>
      if expireBefore < sentinel.createdTs then .ok none
      else
        match routingKey key with
        | none => .error (.Raft "malformed sentinel key")
        | some (bucket, _) =>
          match sentinelIsOrphan store bucket sentinel with
          | .error e => .error (.Store e)
          | .ok isOrphan =>
            if isOrphan && !directoryHasChildren store bucket sentinel.ino then
              .ok (some (bucket, sentinel.ino))
            else .ok none
    | .ok _ => .ok none

def collectOrphans (store : MetaStore) (expireBefore : Int64) :
    List (Bytes × MetaValue) → Except MetaError (List (BucketId × UInt64))
  | [] => .ok []
  | (key, value) :: page =>
    match orphanAt store expireBefore key value with
    | .error e => .error e
    | .ok orphan => (collectOrphans store expireBefore page).map (orphan.toList ++ ·)

/-- `sweep_orphan_sentinels` up to its proposals: the orphans it collects on a leader. -/
def sweepOrphanSentinels (store : MetaStore) (range : PartitionRange) (ttl now : Int64) :
    Except MetaError (List (BucketId × UInt64)) :=
  match range.keyRanges.find? fun r => r.cf = .Fs with
  | none => .ok []
  | some bounds =>
    collectOrphans store (now - ttl) (store.scanPages .Fs bounds.start bounds.stop 1024)

section Sweep

variable {store : MetaStore}

lemma sentinelIsOrphan_eq_true {b : BucketId} {d : DirRecord}
    (h : sentinelIsOrphan store b d = .ok true) :
    ∃ i n, d.parentLink = some (i, n)
      ∧ store.get .Fs (fsKey b i n) ≠ some (.Fs (.Dir ⟨d.ino⟩)) := by
  cases hl : d.parentLink with
  | none => simp [sentinelIsOrphan, hl] at h
  | some link =>
    refine ⟨link.1, link.2, rfl, fun hdir => ?_⟩
    simp [sentinelIsOrphan, hl, readRecord, hdir, decode, MetaValue.fs?, Except.map] at h

variable {orphan : BucketId × UInt64}

variable {expireBefore : Int64} {orphans : List (BucketId × UInt64)}

/-- **What the sweep collects**: a stored sentinel whose parent link does not lead to it. -/
lemma orphanAt_eq_some {key : Bytes} {value : MetaValue}
    (h : orphanAt store expireBefore key value = .ok (some orphan)) :
    ∃ d routing i n, value = .Fs (.Sentinel d) ∧ routingKey key = some (orphan.1, routing)
      ∧ d.ino = orphan.2 ∧ d.parentLink = some (i, n)
      ∧ store.get .Fs (fsKey orphan.1 i n) ≠ some (.Fs (.Dir ⟨d.ino⟩)) := by
  unfold orphanAt at h
  split at h
  · simp at h
  · split at h
    · simp at h
    · next d hv =>
      have hvalue : value = .Fs (.Sentinel d) := by
        cases value <;> simp_all [decode, MetaValue.fs?]
      split at h
      · simp at h
      · split at h
        · simp at h
        · next bucket routing hr =>
          split at h
          · simp at h
          · next isOrphan ho =>
            split at h
            · next hcond =>
              obtain rfl : (bucket, d.ino) = orphan := by simpa using h
              obtain ⟨i, n, hl, hdir⟩ := sentinelIsOrphan_eq_true (by
                rw [ho, (Bool.and_eq_true_iff.mp hcond).1])
              exact ⟨d, routing, i, n, hvalue, hr, rfl, hl, hdir⟩
            · simp at h
    · simp at h

lemma mem_collectOrphans {page : List (Bytes × MetaValue)}
    (h : collectOrphans store expireBefore page = .ok orphans) (hmem : orphan ∈ orphans) :
    ∃ e ∈ page, orphanAt store expireBefore e.1 e.2 = .ok (some orphan) := by
  induction page generalizing orphans with
  | nil =>
    obtain rfl := Except.ok.inj h
    cases hmem
  | cons e page ih =>
    unfold collectOrphans at h
    cases ho : orphanAt store expireBefore e.1 e.2 with
    | error err => simp [ho] at h
    | ok o =>
      simp only [ho] at h
      obtain ⟨rest, hrest, rfl⟩ := map_eq_ok h
      rcases List.mem_append.mp hmem with hmem | hmem
      · exact ⟨e, List.mem_cons_self, by rw [ho, Option.mem_toList.mp hmem]⟩
      · obtain ⟨e', he', heq⟩ := ih hrest hmem
        exact ⟨e', List.mem_cons_of_mem e he', heq⟩

lemma mem_sweepOrphanSentinels {range : PartitionRange} {ttl now : Int64}
    (h : sweepOrphanSentinels store range ttl now = .ok orphans) (hmem : orphan ∈ orphans) :
    ∃ key value expireBefore, store.get .Fs key = some value
      ∧ orphanAt store expireBefore key value = .ok (some orphan) := by
  unfold sweepOrphanSentinels at h
  split at h
  · obtain rfl := Except.ok.inj h
    cases hmem
  · obtain ⟨e, he, ho⟩ := mem_collectOrphans h hmem
    rw [scanPages_eq_range _ _ _ _ (by decide)] at he
    exact ⟨e.1, e.2, _, (OrdMap.mem_range.mp he).1, ho⟩

end Sweep

end Hier

/-! ## Runs -/

/-- The engine and the machine, with the mkdirs whose first half is committed (bucket, parent, name,
new inode) and the orphans that sweeps have collected. -/
structure MkdirRun where
  store : MetaStore
  machine : Machine
  made : List (BucketId × UInt64 × Bytes × UInt64)
  collected : List (BucketId × UInt64)

inductive MkdirStep
  | commit (entry : Entry) (last : Bool)
  | scan (range : PartitionRange) (ttl now : Int64)
deriving DecidableEq

/-- What the first half of a mkdir hands to its second half. -/
def Machine.makes (m : Machine) (store : MetaStore) (entry : Entry) :
    Option (BucketId × UInt64 × Bytes × UInt64) :=
  match entry.hierOp with
  | some (.MkdirSentinel b i n _) => (m.mints store entry).map fun child => (b, i, n, child)
  | _ => none

namespace MkdirRun

def init (store : MetaStore) (m : Machine) : MkdirRun := ⟨store, m, [], []⟩

def step (blake3 : Bytes → BitVec 256) (s : MkdirRun) : MkdirStep → MkdirRun
  | .commit entry last =>
    let s' := Machine.step blake3 (s.store, s.machine) (entry, last)
    { s with
      store := s'.1
      machine := s'.2
      made := s.made ++ (s.machine.makes s.store entry).toList }
  | .scan range ttl now =>
    match Hier.sweepOrphanSentinels s.store range ttl now with
    | .error _ => s
    | .ok orphans => { s with collected := s.collected ++ orphans }

/-- The entries of these runs: file writes, first halves of mkdirs, second halves of those already
begun, and removals of collected orphans. -/
def plays (s : MkdirRun) : HierOp → Prop
  | .Write .. | .MkdirSentinel .. => True
  | .MkdirLink b i n child _ => (b, i, n, child) ∈ s.made
  | .RmdirSentinel b ino _ => (b, ino) ∈ s.collected
  | .Unlink .. | .RmdirUnlink .. | .RenameSameDir .. => False

def Plays (s : MkdirRun) : MkdirStep → Prop
  | .commit entry _ => entry.isRaw = false ∧ ∀ op ∈ entry.hierOp, s.plays op
  | .scan .. => True

/-- The condition on a step: what a sweep has collected is not linked any more. -/
def LinkGuard (s : MkdirRun) : MkdirStep → Prop
  | .commit entry _ => ∀ op ∈ entry.hierOp,
      match op with
      | .MkdirLink b _ _ child _ => (b, child) ∉ s.collected
      | _ => True
  | .scan .. => True

instance (s : MkdirRun) : (op : HierOp) → Decidable (s.plays op)
  | .MkdirLink .. | .RmdirSentinel .. => inferInstanceAs (Decidable (_ ∈ _))
  | .Write .. | .MkdirSentinel .. => inferInstanceAs (Decidable True)
  | .Unlink .. | .RmdirUnlink .. | .RenameSameDir .. => inferInstanceAs (Decidable False)

instance (s : MkdirRun) : (a : MkdirStep) → Decidable (s.Plays a)
  | .commit .. => inferInstanceAs (Decidable (_ ∧ ∀ op ∈ _, s.plays op))
  | .scan .. => inferInstanceAs (Decidable True)

instance (s : MkdirRun) : (a : MkdirStep) → Decidable (s.LinkGuard a)
  | .commit .. => @Option.decidableForallMem _ _ (fun op =>
    match op with
    | .MkdirLink .. => inferInstanceAs (Decidable (_ ∉ _))
    | .Write .. | .Unlink .. | .MkdirSentinel .. | .RmdirUnlink .. | .RmdirSentinel ..
    | .RenameSameDir .. => inferInstanceAs (Decidable True)) _
  | .scan .. => inferInstanceAs (Decidable True)

end MkdirRun

/-- A store that holds root directories and nothing else. -/
def Rooted (store : MetaStore) : Prop :=
  ∀ e ∈ (store .Fs).toList, ∃ b i d,
    e = (Hier.fsKey b i Hier.SENTINEL_NAME, .Fs (.Sentinel d)) ∧ d.ino = i ∧ d.parentLink = none

/-! ## The invariant -/

/-- `child` has a sentinel whose parent link, if any, is the given one. -/
def Anchored (store : MetaStore) (b : BucketId) (i : UInt64) (n : Bytes) (child : UInt64) : Prop :=
  ∃ d, store.get .Fs (Hier.fsKey b child Hier.SENTINEL_NAME) = some (.Fs (.Sentinel d))
    ∧ (d.parentLink = none ∨ d.parentLink = some (i, n))

structure MkdirInv (s : MkdirRun) : Prop where
  sentinels : ∀ {key d}, s.store.get .Fs key = some (.Fs (.Sentinel d)) →
    ∃ b, key = Hier.fsKey b d.ino Hier.SENTINEL_NAME
      ∧ (d.parentLink = none ∨ ∃ c, composeIno s.machine.inoTag c = some d.ino
        ∧ c.toNat < s.machine.inoNext.toNat)
  empties : ∀ {b i v}, s.store.get .Fs (Hier.fsKey b i Hier.SENTINEL_NAME) = some v →
    ∃ d, v = .Fs (.Sentinel d)
  made : ∀ {b i n child}, (b, i, n, child) ∈ s.made → (b, child) ∉ s.collected →
    Anchored s.store b i n child
  dirs : ∀ {b i n child}, s.store.get .Fs (Hier.fsKey b i n) = some (.Fs (.Dir ⟨child⟩)) →
    (b, child) ∉ s.collected ∧ Anchored s.store b i n child

namespace MkdirInv

variable {blake3 : Bytes → BitVec 256} {s : MkdirRun}

/-- **A scan collects nothing that is linked.** -/
lemma scan (hinv : MkdirInv s) {range : PartitionRange} {ttl now : Int64}
    {orphans : List (BucketId × UInt64)}
    (h : Hier.sweepOrphanSentinels s.store range ttl now = .ok orphans) :
    MkdirInv { s with collected := s.collected ++ orphans } where
  sentinels := hinv.sentinels
  empties := hinv.empties
  made hmade hnew := hinv.made hmade fun hold => hnew (List.mem_append_left _ hold)
  dirs {b i n child} hdir := by
    obtain ⟨hold, hanchor⟩ := hinv.dirs hdir
    refine ⟨fun hmem => ?_, hanchor⟩
    rcases List.mem_append.mp hmem with hmem | hmem
    · exact hold hmem
    · obtain ⟨key, value, t, hget, ho⟩ := Hier.mem_sweepOrphanSentinels h hmem
      obtain ⟨d, routing, i', n', rfl, hroute, hino, hlink, hnot⟩ := Hier.orphanAt_eq_some ho
      obtain ⟨b', rfl, -⟩ := hinv.sentinels hget
      simp only at hino hroute hnot
      -- the collected sentinel is the child's own
      obtain rfl : b' = b := by
        rw [Hier.fsKey_eq, routingKey_flatKey (by decide)] at hroute
        simpa using congrArg (Option.map Prod.fst) hroute
      obtain ⟨d', hd', hparent⟩ := hanchor
      obtain rfl : d = d' := by
        rw [hino] at hget
        simpa using hget.symm.trans hd'
      -- and its parent link is the entry
      obtain ⟨rfl, rfl⟩ : i' = i ∧ n' = n := by
        rcases hparent with hnone | hsome
        · simp [hlink] at hnone
        · simpa [hlink] using hsome
      exact hnot (by rw [hdir, hino])

variable {store : MetaStore} {ino' : InoAllocator} {ops : List StoreOp} {b : BucketId}
  {i child : UInt64} {op : HierOp} {n : Bytes}

variable {ino : InoAllocator} {m' : Machine}

/-- A sentinel stays, unless it is removed. -/
lemma anchored_writeAll (hop : Hier.RecordEffect store ino op (KvStore.on .Fs ops) ino')
    (h : Anchored store b i n child) (hrm : ∀ ts, op ≠ .RmdirSentinel b child ts) :
    Anchored (store.applyBatch ops) b i n child := by
  obtain ⟨d, hd, hparent⟩ := h
  rcases hop.sentinel_kept hd with ⟨ts, heq⟩ | ⟨d', hd', -, hlink⟩
  · exact absurd heq (hrm ts)
  · refine ⟨d', ?_, hlink ▸ hparent⟩
    rw [MetaStore.get, KvStore.applyBatch_cf, hd']

/-- The first half of a mkdir leaves a sentinel for the inode it hands out. -/
lemma anchored_of_makes (hinv : MkdirInv s) {b : BucketId} {i : UInt64} {n : Bytes} {ts : Int64}
    {child : UInt64} {ino' : InoAllocator} {ops : List StoreOp}
    (hop : Hier.RecordEffect s.store ⟨s.machine.inoTag, s.machine.inoNext⟩
      (.MkdirSentinel b i n ts) (KvStore.on .Fs ops) ino')
    (hchild : composeIno s.machine.inoTag s.machine.inoNext = some child)
    (hmoved : ino'.next ≠ s.machine.inoNext) :
    Anchored (s.store.applyBatch ops) b i n child := by
  unfold Anchored
  rw [MetaStore.get, KvStore.applyBatch_cf]
  generalize KvStore.on .Fs ops = ws at hop
  cases hop with
  | nothing => exact absurd rfl hmoved
  | @reminted _ _ _ _ child' ino' hmint hold =>
    obtain rfl : child' = child := Option.some.inj ((mint_eq_ok hmint).1.symm.trans hchild)
    obtain ⟨v, hv⟩ := Option.ne_none_iff_exists'.mp hold
    obtain ⟨d, rfl⟩ := hinv.empties hv
    refine ⟨d, hv, Or.inl ?_⟩
    -- an inode is minted once, so what is found is a root
    obtain ⟨b', hkey, hnone | ⟨c, hc, hlt⟩⟩ := hinv.sentinels hv
    · exact hnone
    · obtain ⟨-, hino, -⟩ := Hier.fsKey_inj.mp hkey
      obtain ⟨-, rfl⟩ := composeIno_inj hc (hino ▸ hchild)
      exact absurd hlt (lt_irrefl _)
  | @sentinel _ _ _ _ child' ino' hmint hold =>
    obtain rfl : child' = child := Option.some.inj ((mint_eq_ok hmint).1.symm.trans hchild)
    exact ⟨⟨child', ts, .Exact 0, some (i, n), ts⟩, by simp [OrdMap.writeAll_cons], Or.inr rfl⟩

/-- The ops of these runs store nothing but sentinels at empty names. -/
lemma sentinel_of_plays {ws : List (Bytes × Option MetaValue)}
    (hop : Hier.RecordEffect store ino op ws ino') (hplays : s.plays op) {v : MetaValue}
    (hmem : (Hier.fsKey b i Hier.SENTINEL_NAME, some v) ∈ ws) : ∃ d, v = .Fs (.Sentinel d) := by
  have hname : ∀ {b' i' n}, n ≠ [] → Hier.fsKey b i Hier.SENTINEL_NAME ≠ Hier.fsKey b' i' n :=
    fun hn heq => hn (Hier.fsKey_inj.mp heq).2.2.symm
  have hbump : ∀ {b' i' delta ts}, (Hier.fsKey b i Hier.SENTINEL_NAME, some v)
      ∈ Hier.bumpWrites store b' i' delta ts → ∃ d, v = .Fs (.Sentinel d) := by
    intro b' i' delta ts hw
    obtain ⟨d, -, heq⟩ := Hier.mem_bumpWrites hw
    exact ⟨_, Option.some.inj (congrArg Prod.snd heq)⟩
  cases hop with
  | nothing => cases hmem
  | reminted hmint hold => cases hmem
  | sentinel hmint hold =>
    exact ⟨_, Option.some.inj (congrArg Prod.snd (List.mem_singleton.mp hmem))⟩
  | create hn hold hmint => exact hbump (by simpa [hname hn] using hmem)
  | overwrite hn hold => exact hbump (by simpa [hname hn] using hmem)
  | link hn hold => exact hbump (by simpa [hname hn] using hmem)
  | rmdir hold hempty => simp at hmem
  | unlink hold => exact hplays.elim
  | unlinkDir hold => exact hplays.elim
  | rename hst hsource htarget => exact hplays.elim
  | renameOver hst hsource htarget => exact hplays.elim

/-- **One op keeps the invariant.** -/
lemma commit_op (hinv : MkdirInv s) {op : HierOp} {ino' : InoAllocator} {ops : List StoreOp}
    {new : Option (BucketId × UInt64 × Bytes × UInt64)}
    (hop : Hier.RecordEffect s.store ⟨s.machine.inoTag, s.machine.inoNext⟩ op (KvStore.on .Fs ops) ino')
    (htag : m'.inoTag = s.machine.inoTag) (hnext : m'.inoNext = ino'.next) (hplays : s.plays op)
    (hguard : ∀ b i n child ts, op = .MkdirLink b i n child ts → (b, child) ∉ s.collected)
    (hnew : ∀ b i n child, new = some (b, i, n, child) → ∃ ts, op = .MkdirSentinel b i n ts ∧ composeIno s.machine.inoTag s.machine.inoNext = some child ∧ ino'.next ≠ s.machine.inoNext) :
    MkdirInv ⟨s.store.applyBatch ops, m', s.made ++ new.toList, s.collected⟩ where
  sentinels {key d} hget := by
    -- the counter does not move back
    have hup : ∀ {c : UInt64}, c.toNat < s.machine.inoNext.toNat → c.toNat < m'.inoNext.toNat := by
      intro c hlt
      rcases hop.allocator with rfl | ⟨child, hmint⟩
      · rwa [hnext]
      · obtain ⟨hc, rfl⟩ := mint_eq_ok hmint
        have hsucc := FamilyInv.toNat_succ_of_composeIno hc
        rw [hnext]
        simp only at hsucc ⊢
        omega
    simp only [htag]
    rcases get_applyBatch_eq_some hget with hmem | hold
    · rcases hop.sentinel_put hmem with ⟨b, i, d₀, delta, ts, rfl, hd₀, rfl⟩ |
        ⟨b, i, n, ts, child, rfl, hmint, rfl, rfl⟩
      · obtain ⟨b', hkey, hlink⟩ := hinv.sentinels hd₀
        exact ⟨b', hkey, hlink.imp_right fun ⟨c, hc, hlt⟩ => ⟨c, hc, hup hlt⟩⟩
      · obtain ⟨hc, rfl⟩ := mint_eq_ok hmint
        have hsucc := FamilyInv.toNat_succ_of_composeIno hc
        refine ⟨b, rfl, Or.inr ⟨_, hc, ?_⟩⟩
        rw [hnext]
        simp only at hsucc ⊢
        omega
    · obtain ⟨b', hkey, hlink⟩ := hinv.sentinels hold
      exact ⟨b', hkey, hlink.imp_right fun ⟨c, hc, hlt⟩ => ⟨c, hc, hup hlt⟩⟩
  empties {b i v} hget := by
    rcases get_applyBatch_eq_some hget with hmem | hold
    · exact sentinel_of_plays hop hplays hmem
    · exact hinv.empties hold
  made {b i n child} hmade hnot := by
    rcases List.mem_append.mp hmade with hold | hmem
    · refine anchored_writeAll hop (hinv.made hold hnot) ?_
      rintro ts rfl
      exact hnot hplays
    · obtain ⟨ts, rfl, hchild, hmoved⟩ := hnew b i n child (Option.mem_toList.mp hmem)
      exact hinv.anchored_of_makes hop hchild hmoved
  dirs {b i n child} hget := by
    rcases get_applyBatch_eq_some hget with hmem | hold
    · obtain ⟨b', i', n', ts, rfl, hkey⟩ := hop.dir_put hmem
      obtain ⟨rfl, rfl, rfl⟩ := Hier.fsKey_inj.mp hkey
      have hnot := hguard _ _ _ _ _ rfl
      exact ⟨hnot, anchored_writeAll hop (hinv.made hplays hnot) (by simp)⟩
    · obtain ⟨hnot, hanchor⟩ := hinv.dirs hold
      refine ⟨hnot, anchored_writeAll hop hanchor ?_⟩
      rintro ts rfl
      exact hnot hplays

/-- What an entry hands out is a MkdirSentinel's new inode. -/
lemma makes_eq_some {m : Machine} {entry : Entry} (heff : m.Effect blake3 store entry ops m')
    (h : m.makes store entry = some (b, i, n, child)) :
    ∃ ts, entry.hierOp = some (.MkdirSentinel b i n ts)
      ∧ composeIno m.inoTag m.inoNext = some child ∧ m'.inoNext ≠ m.inoNext := by
  unfold Machine.makes at h
  split at h
  · next b' i' n' ts hop =>
    obtain ⟨child', hmints, heq⟩ := Option.map_eq_some_iff.mp h
    obtain ⟨rfl, rfl, rfl, rfl⟩ : b' = b ∧ i' = i ∧ n' = n ∧ child' = child := by simpa using heq
    rcases heff.mints_cases with ⟨hnone, -⟩ | ⟨j, -, -, -, hsome, hj, hnext⟩
    · simp [hnone] at hmints
    · obtain rfl : j = child' := Option.some.inj (hsome.symm.trans hmints)
      refine ⟨ts, hop, hj, fun heq => ?_⟩
      have hsucc := FamilyInv.toNat_succ_of_composeIno hj
      rw [← hnext, heq] at hsucc
      omega
  · cases h

/-- **One step keeps the invariant.** -/
lemma step (hinv : MkdirInv s) {a : MkdirStep} (hplays : s.Plays a) (hguard : s.LinkGuard a) :
    MkdirInv (s.step blake3 a) := by
  cases a with
  | scan range ttl now =>
    cases hsweep : Hier.sweepOrphanSentinels s.store range ttl now with
    | error e => simpa only [MkdirRun.step, hsweep] using hinv
    | ok orphans => simpa only [MkdirRun.step, hsweep] using hinv.scan hsweep
  | commit entry last =>
    obtain ⟨hraw, hplays⟩ := hplays
    unfold MkdirRun.step
    rcases Machine.step_cases blake3 (s.store, s.machine) (entry, last) with
      ⟨hsame, e, herr⟩ | ⟨ops, m', heff, hstep⟩
    · have hmakes : s.machine.makes s.store entry = none := by
        unfold Machine.makes
        rw [(FamilyInv.mints_of_error herr).1]
        split <;> rfl
      simpa [hsame, hmakes] using hinv
    · simp only [hstep]
      rcases heff.fs_share hraw last with ⟨hnone, hnil, hnext⟩ | ⟨op, ino', hop, hnext, hrec⟩
      · -- an entry of another kind is like a file write that is refused
        have hmakes : s.machine.makes s.store entry = none := by simp [Machine.makes, hnone]
        have hrec : Hier.RecordEffect s.store ⟨s.machine.inoTag, s.machine.inoNext⟩
            (demoWrite [] 0) (KvStore.on .Fs (ops ++ m'.appliedShare entry last))
            ⟨s.machine.inoTag, s.machine.inoNext⟩ := by
          rw [hnil]
          exact .nothing
        refine hinv.commit_op hrec ?_ ?_ trivial (by simp [demoWrite]) (by simp [hmakes])
        · rw [Machine.regauge_inoTag, heff.group_eq.2]
        · rw [Machine.regauge_inoNext, hnext]
      · refine hinv.commit_op hrec ?_ ?_ (hplays op hop) ?_ ?_
        · rw [Machine.regauge_inoTag, heff.group_eq.2]
        · rw [Machine.regauge_inoNext, hnext]
        · rintro b i n child ts rfl
          exact hguard _ hop
        · intro b i n child hmakes
          obtain ⟨ts, hop', hchild, hmoved⟩ := makes_eq_some heff hmakes
          obtain rfl := Option.some.inj (hop.symm.trans hop')
          exact ⟨ts, rfl, hchild, hnext ▸ hmoved⟩

lemma init (h : Rooted store) (m : Machine) : MkdirInv (.init store m) := by
  have hget : ∀ {key v}, store.get .Fs key = some v → ∃ b i d,
      key = Hier.fsKey b i Hier.SENTINEL_NAME ∧ v = .Fs (.Sentinel d) ∧ d.ino = i
        ∧ d.parentLink = none := by
    intro key v hv
    obtain ⟨b, i, d, heq, hino, hlink⟩ := h (key, v) ((OrdMap.mem_toList_iff _ _ _).mpr hv)
    obtain ⟨hkey, hvalue⟩ := Prod.mk.inj heq
    exact ⟨b, i, d, hkey, hvalue, hino, hlink⟩
  refine ⟨fun hd => ?_, fun hv => ?_, fun hmade => ?_, fun hdir => ?_⟩
  · obtain ⟨b, i, d, rfl, heq, rfl, hlink⟩ := hget hd
    obtain rfl := FsRecord.Sentinel.inj (MetaValue.Fs.inj heq)
    exact ⟨b, rfl, Or.inl hlink⟩
  · obtain ⟨-, -, d, -, rfl, -⟩ := hget hv
    exact ⟨d, rfl⟩
  · cases hmade
  · obtain ⟨-, -, d, -, heq, -⟩ := hget hdir
    cases heq

end MkdirInv

/-- **Every directory entry leads to a sentinel**, in every state that file writes, two-step mkdirs
and orphan sweeps reach from a rooted store, if nothing is linked after a sweep has collected it. -/
theorem dir_entry_has_sentinel (blake3 : Bytes → BitVec 256) (store : MetaStore)
    (hroot : Rooted store) (m : Machine) (steps : List MkdirStep)
    (hplays : Along (MkdirRun.step blake3) MkdirRun.Plays (.init store m) steps)
    (hguard : Along (MkdirRun.step blake3) MkdirRun.LinkGuard (.init store m) steps)
    (b : BucketId) (i : UInt64) (n : Bytes) (d : DirEntry)
    (hdir : (run (MkdirRun.step blake3) (.init store m) steps).store.get .Fs (Hier.fsKey b i n)
      = some (.Fs (.Dir d))) :
    ∃ sentinel, (run (MkdirRun.step blake3) (.init store m) steps).store.get .Fs
        (Hier.fsKey b d.ino Hier.SENTINEL_NAME) = some (.Fs (.Sentinel sentinel)) := by
  have hinv : MkdirInv (run (MkdirRun.step blake3) (.init store m) steps) := by
    refine (hplays.and hguard).invariant ?_ (MkdirInv.init hroot m)
    rintro s a hs ⟨hp, hg⟩
    exact hs.step hp hg
  obtain ⟨-, sentinel, hs, -⟩ := hinv.dirs hdir
  exact ⟨sentinel, hs⟩

/-- A step that commits one op. -/
def demoCommit (op : HierOp) : MkdirStep := .commit ⟨⟨1, 1, 1⟩, .Normal (.Hier op)⟩ true

/-- Two mkdirs: a sweep finds the second one's sentinel between its halves, and that mkdir never
links it.  The first one's entry keeps its sentinel. -/
theorem dir_entry_has_sentinel_demo :
    let s := run (MkdirRun.step fun _ => 0) (.init demoRoot (demoMachine .Hier))
      [demoCommit (.MkdirSentinel 1 ROOT_INO [0x61] 0), demoCommit (.MkdirLink 1 ROOT_INO [0x61] 0 0),
        demoCommit (demoWrite [0x66] 1), demoCommit (.MkdirSentinel 1 ROOT_INO [0x62] 0),
        .scan (.full .Hier) 0 1, demoCommit (.RmdirSentinel 1 2 1)]
    s.collected = [(1, 2)]
      ∧ s.store.get .Fs (Hier.fsKey 1 2 Hier.SENTINEL_NAME) = none
      ∧ ∃ sentinel, s.store.get .Fs (Hier.fsKey 1 0 Hier.SENTINEL_NAME)
        = some (.Fs (.Sentinel sentinel)) := by
  have hroot : Rooted demoRoot := by
    intro e he
    obtain rfl := List.mem_singleton.mp he
    exact ⟨1, ROOT_INO, _, rfl, rfl, rfl⟩
  refine ⟨by decide +kernel, by decide +kernel, ?_⟩
  exact dir_entry_has_sentinel (fun _ => 0) demoRoot hroot _ _ (by decide +kernel)
    (by decide +kernel) 1 ROOT_INO [0x61] ⟨0⟩ (by decide +kernel)

/-- A sweep reads the store between the halves of a mkdir.  The link is committed, then the removal
the sweep has decided on: the directory is still empty, and loses its sentinel. -/
theorem sweep_removes_linked_sentinel :
    let steps := [demoCommit (.MkdirSentinel 1 ROOT_INO [0x61] 0), .scan (.full .Hier) 0 1,
      demoCommit (.MkdirLink 1 ROOT_INO [0x61] 0 1), demoCommit (.RmdirSentinel 1 0 1)]
    let start := MkdirRun.init demoRoot (demoMachine .Hier)
    let s := run (MkdirRun.step fun _ => 0) start steps
    Along (MkdirRun.step fun _ => 0) MkdirRun.Plays start steps
      ∧ s.store.get .Fs (Hier.fsKey 1 ROOT_INO [0x61]) = some (.Fs (.Dir ⟨0⟩))
      ∧ s.store.get .Fs (Hier.fsKey 1 0 Hier.SENTINEL_NAME) = none := by
  exact ⟨by decide +kernel, by decide +kernel, by decide +kernel⟩

end Epoch
