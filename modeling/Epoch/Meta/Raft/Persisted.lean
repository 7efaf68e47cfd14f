import Epoch.Meta.Raft.Entry

/-!
# The records mirror the machine

Everything a machine keeps in memory, except for the queue gauge, is also in the bookkeeping records
of its group, and `Machine.new` reads it back from there.  `Persisted` says that the two agree; every
committed entry and every snapshot install keeps it (`Machine.Effect.persisted`,
`persisted_installSnapshot`).  A split must not name its own group as the child, because it would
reset the group's counters on disk and not in memory.
-/

namespace Epoch

/-- The records of a group hold what its machine has in memory. -/
structure Persisted (bootstrap : PartitionRange) (store : MetaStore) (m : Machine) : Prop where
  guard : decodeGuardRecord (store.get .Applied (guardKey m.group))
    = (m.guard.inlineBytes, m.guard.inlineCount, m.guard.totalBytes)
  delqSeq : readU64 store (delqSeqKey m.group) = m.delqNext
  inoSeq : readU64 store (inoSeqKey m.group) = m.inoNext
  inoTag : readU32 store (inoTagKey m.group) = m.inoTag
  range : store.get .Applied (rangeKey m.group) = some (.Range m.range)
    ∨ store.get .Applied (rangeKey m.group) = none ∧ m.range = bootstrap

/-- The entry does not split off its own group. -/
def Entry.splitsOther (entry : Entry) (group : UInt64) : Prop :=
  match entry.payload with
  | .Normal (.Split op) => op.childGroup ≠ group
  | _ => True

variable {blake3 : Bytes → BitVec 256} {bootstrap : PartitionRange} {store store' : MetaStore}
  {m m' : Machine} {entry : Entry} {ops : List StoreOp}

/-- A machine that was just built agrees with the records. -/
lemma Persisted.of_new {group : UInt64} (h : Machine.new store group bootstrap = .ok m) :
    Persisted bootstrap store m := by
  unfold Machine.new at h
  cases hr : readBookkeeping MetaValue.range? store (rangeKey group) with
  | error e => simp [hr] at h
  | ok persisted =>
    simp only [hr, Except.ok.injEq] at h
    subst h
    refine ⟨rfl, rfl, rfl, rfl, ?_⟩
    unfold readBookkeeping at hr
    cases hget : store.get .Applied (rangeKey group) with
    | none =>
      simp only [hget, Except.ok.injEq] at hr
      subst hr
      exact Or.inr ⟨rfl, rfl⟩
    | some v =>
      simp only [hget] at hr
      obtain ⟨r, hdecode, rfl⟩ := Hier.map_eq_ok hr
      unfold decode at hdecode
      cases v with
      | Range r' =>
        obtain rfl : r' = r := by simpa [MetaValue.range?] using hdecode
        exact Or.inl rfl
      | _ => simp [MetaValue.range?] at hdecode

/-- Rebuilding the machine from agreeing records gives it back, with the gauge recounted. -/
lemma Persisted.new_eq (h : Persisted bootstrap store m) :
    Machine.new store m.group bootstrap
      = .ok { m with guard := { m.guard with delqDepth := countDelqEntries store m.range } } := by
  have hrange : readBookkeeping MetaValue.range? store (rangeKey m.group) = .ok (some m.range)
      ∨ readBookkeeping MetaValue.range? store (rangeKey m.group) = .ok none
        ∧ m.range = bootstrap := by
    rcases h.range with hget | ⟨hget, hboot⟩
    · exact Or.inl (by simp [readBookkeeping, hget, decode, MetaValue.range?, Except.map])
    · exact Or.inr ⟨by simp [readBookkeeping, hget], hboot⟩
  unfold Machine.new
  rcases hrange with hr | ⟨hr, hboot⟩
  · simp [hr, h.guard, h.delqSeq, h.inoSeq, h.inoTag]
  · simp [hr, h.guard, h.delqSeq, h.inoSeq, h.inoTag, hboot]

/-- The fields that the records hold decide. -/
lemma Persisted.congr (h : Persisted bootstrap store m) (hgroup : m'.group = m.group)
    (hrange : m'.range = m.range) (hdelq : m'.delqNext = m.delqNext) (hino : m'.inoNext = m.inoNext)
    (htag : m'.inoTag = m.inoTag) (hguard : m'.guard.inlineBytes = m.guard.inlineBytes
      ∧ m'.guard.inlineCount = m.guard.inlineCount ∧ m'.guard.totalBytes = m.guard.totalBytes) :
    Persisted bootstrap store m' := by
  obtain ⟨h1, h2, h3⟩ := hguard
  exact ⟨by rw [hgroup, h1, h2, h3]; exact h.guard, by rw [hgroup, hdelq]; exact h.delqSeq,
    by rw [hgroup, hino]; exact h.inoSeq, by rw [hgroup, htag]; exact h.inoTag,
    by rw [hgroup, hrange]; exact h.range⟩

/-- Records other than the written ones are read as before. -/
lemma Persisted.of_get_eq (h : Persisted bootstrap store m)
    (hget : ∀ s ∈ [0x69, 0x64, 0x6e, 0x74, 0x72], store'.get .Applied (bookkeepingKey m.group s)
      = store.get .Applied (bookkeepingKey m.group s)) :
    Persisted bootstrap store' m := by
  have hguard := hget 0x69 (by decide)
  have hdelq := hget 0x64 (by decide)
  have hino := hget 0x6e (by decide)
  have htag := hget 0x74 (by decide)
  have hrange := hget 0x72 (by decide)
  refine ⟨?_, ?_, ?_, ?_, ?_⟩
  · rw [guardKey, hguard]; exact h.guard
  · rw [readU64, delqSeqKey, hdelq]; exact h.delqSeq
  · rw [readU64, inoSeqKey, hino]; exact h.inoSeq
  · rw [readU32, inoTagKey, htag]; exact h.inoTag
  · rw [rangeKey, hrange]; exact h.range

/-- The records after a flat op. -/
lemma get_applied_flat (entry : Entry) {op : FlatOp} {out : ApplyOutcome}
    (ha : Flat.apply blake3 store op m.delqNext = .ok out) (last : Bool) (s : UInt8) :
    MetaStore.get (store.applyBatch (out.ops
        ++ [(m.afterFlat out).delqSeqPut, (m.afterFlat out).guardPut]
        ++ (m.afterFlat out).appliedShare entry last)) .Applied (bookkeepingKey m.group s)
      = if last = true ∧ s = 0x61 then some (.Applied entry.logId)
        else if s = 0x69 then
          some (.GuardRecord (m.afterFlat out).guard.inlineBytes (m.afterFlat out).guard.inlineCount
            (m.afterFlat out).guard.totalBytes)
        else if s = 0x64 then some (.U64 (m.delqNext + 1))
        else store.get .Applied (bookkeepingKey m.group s) := by
  rw [MetaStore.get, KvStore.applyBatch_cf, KvStore.on_append, KvStore.on_append,
    Flat.on_eq_nil ha (by decide), Machine.on_applied_appliedShare]
  simp only [Machine.delqSeqPut, Machine.guardPut, KvStore.on_cons, KvStore.on_nil, WriteOp.put,
    if_true, List.cons_append, List.nil_append, delqSeqKey, guardKey, appliedKey]
  cases last <;>
    simp [OrdMap.writeAll_cons, bookkeepingKey_inj, MetaStore.get, Machine.afterFlat,
      eq_comm (a := s)]

/-- The records after a hierarchical op. -/
lemma get_applied_hier (entry : Entry) {op : HierOp} {out : ApplyOutcome} {ino' : InoAllocator}
    (ha : Hier.apply store op m.delqNext ⟨m.inoTag, m.inoNext⟩ = .ok (out, ino')) (last : Bool)
    (s : UInt8) :
    MetaStore.get (store.applyBatch (out.ops
        ++ [(m.afterHier out ino').delqSeqPut, (m.afterHier out ino').inoSeqPut,
          (m.afterHier out ino').guardPut]
        ++ (m.afterHier out ino').appliedShare entry last)) .Applied (bookkeepingKey m.group s)
      = if last = true ∧ s = 0x61 then some (.Applied entry.logId)
        else if s = 0x69 then
          some (.GuardRecord (m.afterHier out ino').guard.inlineBytes
            (m.afterHier out ino').guard.inlineCount (m.afterHier out ino').guard.totalBytes)
        else if s = 0x6e then some (.U64 ino'.next)
        else if s = 0x64 then some (.U64 (m.delqNext + 1))
        else store.get .Applied (bookkeepingKey m.group s) := by
  rw [MetaStore.get, KvStore.applyBatch_cf, KvStore.on_append, KvStore.on_append,
    Hier.on_applied_eq_nil ha, Machine.on_applied_appliedShare]
  simp only [Machine.delqSeqPut, Machine.inoSeqPut, Machine.guardPut, KvStore.on_cons,
    KvStore.on_nil, WriteOp.put, if_true, List.cons_append, List.nil_append, delqSeqKey, inoSeqKey,
    guardKey, appliedKey]
  cases last <;>
    simp [OrdMap.writeAll_cons, bookkeepingKey_inj, MetaStore.get, Machine.afterHier,
      eq_comm (a := s)]

/-- **A committed entry keeps records and machine together.** -/
theorem Machine.Effect.persisted (h : Effect blake3 store m entry ops m')
    (hdata : entry.dataOnly = true) (hchild : entry.splitsOther m.group)
    (hp : Persisted bootstrap store m) (last : Bool) :
    Persisted bootstrap (store.applyBatch (ops ++ m'.appliedShare entry last)) m' := by
  have hguard : decodeGuardRecord (store.get .Applied (bookkeepingKey m.group 0x69)) = _ := hp.guard
  have hdelq : ((store.get .Applied (bookkeepingKey m.group 0x64)).bind MetaValue.u64?).getD 0 = _ :=
    hp.delqSeq
  have hino : ((store.get .Applied (bookkeepingKey m.group 0x6e)).bind MetaValue.u64?).getD 0 = _ :=
    hp.inoSeq
  have htag : ((store.get .Applied (bookkeepingKey m.group 0x74)).bind MetaValue.u32?).getD 0 = _ :=
    hp.inoTag
  have hrange : store.get .Applied (bookkeepingKey m.group 0x72) = _
      ∨ store.get .Applied (bookkeepingKey m.group 0x72) = none ∧ _ := hp.range
  -- unless the batch writes counters, only the applied record can be new
  have hquiet : (∀ w ∈ KvStore.on .Applied ops, w.1 = membershipKey m.group) → m' = m →
      Persisted bootstrap (store.applyBatch (ops ++ m'.appliedShare entry last)) m' := by
    rintro hops rfl
    refine hp.of_get_eq fun s hs => ?_
    rw [MetaStore.get, KvStore.applyBatch_cf, KvStore.on_append, on_applied_appliedShare]
    refine OrdMap.get_writeAll_of_notMem fun hmem => ?_
    obtain ⟨w, hw, hkey⟩ := List.mem_map.mp hmem
    rcases List.mem_append.mp hw with hw | hw
    · rw [hops w hw, membershipKey, bookkeepingKey_inj] at hkey
      simp [← hkey.2] at hs
    · split_ifs at hw
      · rw [List.mem_singleton.mp hw, appliedKey, bookkeepingKey_inj] at hkey
        simp [← hkey.2] at hs
      · cases hw
  cases h with
  | blank hp' => exact hquiet (by simp) rfl
  | idleSplit hp' hs => exact hquiet (by simp) rfl
  | membership hp' => exact hquiet (by simp [WriteOp.put]) rfl
  | storeOps hp' =>
    refine hquiet (fun w hw => ?_) rfl
    simp only [Entry.dataOnly, hp', List.all_eq_true, decide_eq_true_eq] at hdata
    exact absurd rfl (hdata _ (KvStore.mem_on.mp hw))
  | @flat op out hp' ha =>
    have hget := get_applied_flat entry ha last
    refine ⟨?_, ?_, ?_, ?_, ?_⟩
    · rw [guardKey, afterFlat_group, hget]
      simp [decodeGuardRecord]
    · rw [readU64, delqSeqKey, afterFlat_group, hget]
      simp [MetaValue.u64?]
    · rw [readU64, inoSeqKey, afterFlat_group, hget]
      simpa using hino
    · rw [readU32, inoTagKey, afterFlat_group, hget]
      simpa using htag
    · rw [rangeKey, afterFlat_group, hget]
      simpa using hrange
  | @hier op out ino' hp' ha =>
    have hget := get_applied_hier entry ha last
    refine ⟨?_, ?_, ?_, ?_, ?_⟩
    · rw [guardKey, afterHier_group, hget]
      simp [decodeGuardRecord]
    · rw [readU64, delqSeqKey, afterHier_group, hget]
      simp [MetaValue.u64?]
    · rw [readU64, inoSeqKey, afterHier_group, hget]
      simp [MetaValue.u64?]
    · rw [readU32, inoTagKey, afterHier_group, hget]
      simpa using htag
    · rw [rangeKey, afterHier_group, hget]
      simpa using hrange
  | @split op left right hp' hs =>
    have hne : m.group ≠ op.childGroup := by
      simp only [Entry.splitsOther, hp'] at hchild
      exact hchild.symm
    have hget := get_applied_split store m entry op left right last m.group
    refine ⟨?_, ?_, ?_, ?_, ?_⟩
    · rw [guardKey, hget]
      simpa [hne] using hguard
    · rw [readU64, delqSeqKey, hget]
      simpa [hne] using hdelq
    · rw [readU64, inoSeqKey, hget]
      simpa [hne] using hino
    · rw [readU32, inoTagKey, hget]
      simpa [hne] using htag
    · rw [rangeKey, hget]
      simp

/-! ## Installs -/

lemma installSnapshot_store (record : SnapshotMeta) (data : SnapshotData) :
    (m.installSnapshot store record data).1
      = store.applyBatch (m.clearOps store
          ++ data.entries.map (fun e => WriteOp.put e.1 e.2.1 e.2.2)
          ++ m.installRecords record data) := rfl

/-- The puts of a snapshot's entries. -/
lemma on_map_entries (c : MetaCf) (entries : List (MetaCf × Bytes × MetaValue)) :
    KvStore.on c (entries.map fun e => (WriteOp.put e.1 e.2.1 e.2.2 : StoreOp))
      = (entries.filter fun e => e.1 = c).map fun e => (e.2.1, some e.2.2) := by
  induction entries with
  | nil => rfl
  | cons e entries ih =>
    rw [List.map_cons, KvStore.on_cons, ih]
    by_cases h : e.1 = c <;> simp [WriteOp.put, h]

/-- What an install clears in one family: everything within the byte bounds. -/
lemma mem_on_clearOps {c : MetaCf} {w : Bytes × Option MetaValue} :
    w ∈ KvStore.on c (m.clearOps store)
      ↔ w.2 = none ∧ c ∈ PartitionRange.exportedCfs m.range.ns
        ∧ store.get c w.1 ≠ none ∧ (m.range.keyRange c).start ≤ w.1
        ∧ w.1 < (m.range.keyRange c).stop := by
  rw [KvStore.mem_on]
  simp only [Machine.clearOps, PartitionRange.keyRanges, List.mem_flatMap, List.mem_map]
  constructor
  · rintro ⟨_, ⟨c', hc', rfl⟩, e, he, heq⟩
    rw [scanPages_eq_range _ _ _ _ (by decide), OrdMap.mem_range] at he
    simp only [WriteOp.delete, WriteOp.mk.injEq, PartitionRange.keyRange_cf] at heq he
    obtain ⟨rfl, hkey, hvalue⟩ := heq
    rw [← hkey, ← hvalue]
    refine ⟨rfl, hc', ?_, he.2⟩
    rw [MetaStore.get, he.1]
    simp
  · rintro ⟨hvalue, hc, hget, hbounds⟩
    obtain ⟨v, hv⟩ := Option.ne_none_iff_exists'.mp hget
    refine ⟨_, ⟨c, hc, rfl⟩, (w.1, v), ?_, ?_⟩
    · rw [scanPages_eq_range _ _ _ _ (by decide), OrdMap.mem_range, PartitionRange.keyRange_cf]
      exact ⟨hv, hbounds⟩
    · rw [PartitionRange.keyRange_cf, WriteOp.delete, hvalue]

lemma on_applied_clearOps : KvStore.on .Applied (m.clearOps store) = [] := by
  refine List.eq_nil_iff_forall_not_mem.mpr fun w hw => ?_
  have hc := (mem_on_clearOps.mp hw).2.1
  revert hc
  cases m.range.ns <;> decide

/-- The records after an install. -/
lemma get_applied_install (store : MetaStore) (m : Machine) (record : SnapshotMeta) {data : SnapshotData}
    (hentries : ∀ e ∈ data.entries, e.1 ≠ .Applied) (s : UInt8) :
    MetaStore.get (m.installSnapshot store record data).1 .Applied (bookkeepingKey m.group s)
      = if s = 0x69 then some (.GuardRecord data.inlineBytes data.inlineCount data.totalBytes)
        else if s = 0x6e then some (.U64 data.inoSeq)
        else if s = 0x64 then some (.U64 data.delqSeq)
        else if s = 0x73 then some (.Snapshot record)
        else if s = 0x6d then some (.Members data.lastMembership)
        else if s = 0x61 then data.lastApplied.map .Applied
        else store.get .Applied (bookkeepingKey m.group s) := by
  have hputs : data.entries.filter (fun e => e.1 = .Applied) = [] := by
    rw [List.filter_eq_nil_iff]
    intro e he
    simpa using hentries e he
  rw [installSnapshot_store, MetaStore.get, KvStore.applyBatch_cf, KvStore.on_append,
    KvStore.on_append, on_applied_clearOps, on_map_entries, hputs]
  simp only [Machine.installRecords, KvStore.on_cons, KvStore.on_nil, WriteOp.put, WriteOp.delete,
    List.map_nil, List.nil_append, appliedKey, membershipKey, snapshotKey, delqSeqKey, inoSeqKey,
    guardKey]
  cases data.lastApplied <;>
    simp [OrdMap.writeAll_cons, bookkeepingKey_inj, MetaStore.get, eq_comm (a := s)]

/-- **An install replaces the counters in both places**, and neither the range nor the tag. -/
theorem persisted_installSnapshot (hp : Persisted bootstrap store m) (record : SnapshotMeta)
    {data : SnapshotData} (hentries : ∀ e ∈ data.entries, e.1 ≠ .Applied) :
    Persisted bootstrap (m.installSnapshot store record data).1
      (m.installSnapshot store record data).2 := by
  have hget := get_applied_install store m record hentries
  have hgroup : (m.installSnapshot store record data).2.group = m.group := rfl
  refine ⟨?_, ?_, ?_, ?_, ?_⟩
  · rw [hgroup, guardKey, hget]
    rfl
  · rw [hgroup, readU64, delqSeqKey, hget]
    rfl
  · rw [hgroup, readU64, inoSeqKey, hget]
    rfl
  · rw [hgroup, readU32, inoTagKey, hget]
    exact hp.inoTag
  · rw [hgroup, rangeKey, hget]
    exact hp.range

end Epoch
