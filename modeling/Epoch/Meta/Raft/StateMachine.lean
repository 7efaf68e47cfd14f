import Epoch.Meta.Flat.Ops
import Epoch.Meta.Hier.Ops

/-!
# The partition state machine (`raft/state_machine.rs`)

One raft group owns one partition.  Its machine keeps the partition's range and counters in memory,
mirrored by bookkeeping records in the `applied` family under the group's id, and turns every
committed entry into one batch for the engine it shares with the other groups of the node.

* `entryOps` builds the batch of one entry; the machine's counters move with it.
* `apply` commits a list of entries, one atomic batch each.  Only the batch of the *last* entry
  carries the applied record, so `applyEntry` takes a flag for it.
* `new` rebuilds a machine from the records, `buildSnapshot` and `installSnapshot` move a
  partition's content between engines.

The hash of `CompleteMultipart` is a parameter, as in the flat namespace.
-/

namespace Epoch

/-! ## Bookkeeping records -/

/-- `group (u64 BE) | suffix`. -/
def bookkeepingKey (group : UInt64) (suffix : UInt8) : Bytes := be64 group ++ [suffix]

def appliedKey (group : UInt64) : Bytes := bookkeepingKey group 0x61

def membershipKey (group : UInt64) : Bytes := bookkeepingKey group 0x6d

def snapshotKey (group : UInt64) : Bytes := bookkeepingKey group 0x73

def delqSeqKey (group : UInt64) : Bytes := bookkeepingKey group 0x64

def guardKey (group : UInt64) : Bytes := bookkeepingKey group 0x69

def inoSeqKey (group : UInt64) : Bytes := bookkeepingKey group 0x6e

def rangeKey (group : UInt64) : Bytes := bookkeepingKey group 0x72

def pendingSplitKey (group : UInt64) : Bytes := bookkeepingKey group 0x70

def inoTagKey (group : UInt64) : Bytes := bookkeepingKey group 0x74

@[simp] lemma bookkeepingKey_inj {g g' : UInt64} {s s' : UInt8} :
    bookkeepingKey g s = bookkeepingKey g' s' ↔ g = g' ∧ s = s' := by
  rw [bookkeepingKey, bookkeepingKey, append_eq_append_iff_of_length (by simp)]
  simp

/-- A counter record; absent or malformed reads as zero. -/
def readU64 (store : MetaStore) (key : Bytes) : UInt64 :=
  ((store.get .Applied key).bind MetaValue.u64?).getD 0

def readU32 (store : MetaStore) (key : Bytes) : UInt32 :=
  ((store.get .Applied key).bind MetaValue.u32?).getD 0

/-- The guard counters; absent or malformed reads as zeros. -/
def decodeGuardRecord : Option MetaValue → UInt64 × UInt64 × UInt64
  | some (.GuardRecord inline count total) => (inline, count, total)
  | _ => (0, 0, 0)

def readBookkeeping {α : Type} (as? : MetaValue → Option α) (store : MetaStore) (key : Bytes) :
    Except MetaStoreError (Option α) :=
  match store.get .Applied key with
  | none => .ok none
  | some v => (decode as? v).map some

def readPendingSplit (store : MetaStore) (group : UInt64) :
    Except MetaStoreError (Option PendingSplit) :=
  readBookkeeping MetaValue.split? store (pendingSplitKey group)

def clearPendingSplit (store : MetaStore) (group : UInt64) : MetaStore :=
  store.applyBatch [WriteOp.delete .Applied (pendingSplitKey group)]

/-! ## The delete-queue gauge -/

/-- The pending deletes within a range's byte bounds. -/
def countDelqEntries (store : MetaStore) (range : PartitionRange) : UInt64 :=
  UInt64.ofNat ((range.keyRanges.filter fun r => r.cf = .Delq).map fun r =>
    (store.scanPages .Delq r.start r.stop 4096).length).sum

/-- Queue puts minus queue deletes of a batch. -/
def delqDelta (ops : List StoreOp) : Int64 :=
  (ops.filter fun op => op.cf = .Delq).foldl
    (fun n op => if op.value.isSome then n + 1 else n - 1) 0

/-! ## Entries -/

structure SplitOp where
  childGroup : UInt64
  atBucket : BucketId
  atRoutingKey : Bytes
  childPeers : List (UInt64 × String)
  bootstrapNode : UInt64
  childInoTag : UInt32
deriving DecidableEq, Repr

inductive MetaEntry
  | StoreOps (batch : List StoreOp)
  | Flat (op : FlatOp)
  | Hier (op : HierOp)
  | Split (op : SplitOp)
deriving DecidableEq

inductive EntryPayload
  | Blank
  | Normal (entry : MetaEntry)
  | Membership (membership : Membership)
deriving DecidableEq

structure Entry where
  logId : LogId
  payload : EntryPayload
deriving DecidableEq

/-! ## The machine -/

/-- `MetaStateMachine` without the engine, which is passed along. -/
structure Machine where
  group : UInt64
  range : PartitionRange
  guard : PartitionGuard
  delqNext : UInt64
  inoNext : UInt64
  inoTag : UInt32
deriving DecidableEq

namespace Machine

/-- `MetaStateMachine::new`: the persisted range wins over the bootstrap range. -/
def new (store : MetaStore) (group : UInt64) (bootstrap : PartitionRange) :
    Except MetaStoreError Machine :=
  let guard := decodeGuardRecord (store.get .Applied (guardKey group))
  match readBookkeeping MetaValue.range? store (rangeKey group) with
  | .error e => .error e
  | .ok persisted =>
    let range := persisted.getD bootstrap
    .ok
      { group, range
        guard := ⟨guard.1, guard.2.1, guard.2.2, countDelqEntries store range⟩
        delqNext := readU64 store (delqSeqKey group)
        inoNext := readU64 store (inoSeqKey group)
        inoTag := readU32 store (inoTagKey group) }

/-- The records of a split into `left` and `right`. -/
def splitRecords (m : Machine) (op : SplitOp) (left right : PartitionRange) : List StoreOp :=
  [WriteOp.put .Applied (rangeKey m.group) (.Range left),
    WriteOp.put .Applied (pendingSplitKey m.group)
      (.Split ⟨op.childGroup, right, op.childPeers, op.bootstrapNode⟩),
    WriteOp.put .Applied (delqSeqKey op.childGroup) (.U64 0),
    WriteOp.put .Applied (inoSeqKey op.childGroup) (.U64 0),
    WriteOp.put .Applied (inoTagKey op.childGroup) (.U32 op.childInoTag)]

/-- `split_ops`: narrow to the left half, record the pending child and seed its records.  A
boundary outside the range is a no-op. -/
def splitOps (m : Machine) (op : SplitOp) : List StoreOp × Machine :=
  match m.range.split (op.atBucket, op.atRoutingKey) with
  | none => ([], m)
  | some (left, right) => (m.splitRecords op left right, { m with range := left })

/-- The batch share of the queue counter. -/
def delqSeqPut (m : Machine) : StoreOp := WriteOp.put .Applied (delqSeqKey m.group) (.U64 m.delqNext)

/-- The batch share of the inode counter. -/
def inoSeqPut (m : Machine) : StoreOp := WriteOp.put .Applied (inoSeqKey m.group) (.U64 m.inoNext)

/-- The batch share of a guard accounting. -/
def guardPut (m : Machine) : StoreOp :=
  WriteOp.put .Applied (guardKey m.group)
    (.GuardRecord m.guard.inlineBytes m.guard.inlineCount m.guard.totalBytes)

/-- The machine after a flat op. -/
def afterFlat (m : Machine) (out : ApplyOutcome) : Machine :=
  { m with delqNext := m.delqNext + 1, guard := m.guard.account out.delta }

/-- The machine after a hierarchical op. -/
def afterHier (m : Machine) (out : ApplyOutcome) (ino : InoAllocator) : Machine :=
  { m with delqNext := m.delqNext + 1, inoNext := ino.next, guard := m.guard.account out.delta }

attribute [simps] afterFlat afterHier

/-- `entry_ops`: the batch of one entry, its response, and the machine afterwards. -/
def entryOps (blake3 : Bytes → BitVec 256) (store : MetaStore) (m : Machine) (entry : Entry) :
    Except MetaStoreError (List StoreOp × MetaResponse × Machine) :=
  match entry.payload with
  | .Blank => .ok ([], .None, m)
  | .Normal (.StoreOps batch) => .ok (batch, .None, m)
  | .Normal (.Flat op) =>
    match Flat.apply blake3 store op m.delqNext with
    | .error e => .error e
    | .ok out =>
      let m' := m.afterFlat out
      .ok (out.ops ++ [m'.delqSeqPut, m'.guardPut], out.response, m')
  | .Normal (.Hier op) =>
    match Hier.apply store op m.delqNext ⟨m.inoTag, m.inoNext⟩ with
    | .error e => .error e
    | .ok (out, ino) =>
      let m' := m.afterHier out ino
      .ok (out.ops ++ [m'.delqSeqPut, m'.inoSeqPut, m'.guardPut], out.response, m')
  | .Normal (.Split op) => .ok ((m.splitOps op).1, .None, (m.splitOps op).2)
  | .Membership membership =>
    .ok ([WriteOp.put .Applied (membershipKey m.group)
      (.Members ⟨some entry.logId, membership⟩)], .None, m)

/-- The applied record of a group. -/
def appliedPut (m : Machine) (logId : LogId) : StoreOp :=
  WriteOp.put .Applied (appliedKey m.group) (.Applied logId)

/-- The batch share of the applied record, on the last entry of a call. -/
def appliedShare (m : Machine) (entry : Entry) (last : Bool) : List StoreOp :=
  if last then [m.appliedPut entry.logId] else []

/-- The gauge after a committed batch: re-seeded by a split, counted otherwise. -/
def regauge (m : Machine) (store : MetaStore) (entry : Entry) (ops : List StoreOp) : Machine :=
  match entry.payload with
  | .Normal (.Split _) =>
    { m with guard := { m.guard with delqDepth := countDelqEntries store m.range } }
  | _ => { m with guard := m.guard.accountDelq (delqDelta ops) }

/-- One turn of the loop of `apply`: commit the batch of `entry`, with the applied record if it is
the last of the call. -/
def applyEntry (blake3 : Bytes → BitVec 256) (s : MetaStore × Machine) (entry : Entry)
    (last : Bool) : Except MetaStoreError ((MetaStore × Machine) × MetaResponse) :=
  match entryOps blake3 s.1 s.2 entry with
  | .error e => .error e
  | .ok (ops, response, m) =>
    let ops := ops ++ m.appliedShare entry last
    let store := s.1.applyBatch ops
    .ok ((store, m.regauge store entry ops), response)

/-- `apply`: the applied record rides on the last entry. -/
def apply (blake3 : Bytes → BitVec 256) (s : MetaStore × Machine) :
    List Entry → Except MetaStoreError ((MetaStore × Machine) × List MetaResponse)
  | [] => .ok (s, [])
  | [entry] =>
    match applyEntry blake3 s entry true with
    | .error e => .error e
    | .ok (s', response) => .ok (s', [response])
  | entry :: entries =>
    match applyEntry blake3 s entry false with
    | .error e => .error e
    | .ok (s', response) =>
      match apply blake3 s' entries with
      | .error e => .error e
      | .ok (s'', responses) => .ok (s'', response :: responses)

/-- `applied_state`. -/
def appliedState (m : Machine) (store : MetaStore) :
    Except MetaStoreError (Option LogId × StoredMembership) :=
  match readBookkeeping MetaValue.logId? store (appliedKey m.group) with
  | .error e => .error e
  | .ok applied =>
    match readBookkeeping MetaValue.members? store (membershipKey m.group) with
    | .error e => .error e
    | .ok membership => .ok (applied, membership.getD StoredMembership.default)

end Machine

/-! ## Snapshots -/

/-- `MetaSnapshotData`. -/
structure SnapshotData where
  lastApplied : Option LogId
  lastMembership : StoredMembership
  delqSeq : UInt64
  inoSeq : UInt64
  inlineBytes : UInt64
  inlineCount : UInt64
  totalBytes : UInt64
  entries : List (MetaCf × Bytes × MetaValue)
deriving DecidableEq

/-- `MetaStore::snapshot`: the entries of the given key ranges. -/
def MetaStore.snapshot (store : MetaStore) (ranges : List KeyRange) :
    List (MetaCf × Bytes × MetaValue) :=
  ranges.flatMap fun r => ((store r.cf).range r.start r.stop).map fun e => (r.cf, e.1, e.2)

namespace Machine

/-- `build_snapshot`: export the range, filtered by the membership rule, with the group's records.
`n` is the process-wide snapshot counter.  The snapshot is also stored as the current one. -/
def buildSnapshot (m : Machine) (store : MetaStore) (n : UInt64) :
    Except MetaStoreError (SnapshotData × SnapshotMeta × MetaStore) :=
  match m.appliedState store with
  | .error e => .error e
  | .ok (lastApplied, lastMembership) =>
    let guard := decodeGuardRecord (store.get .Applied (guardKey m.group))
    let data : SnapshotData :=
      { lastApplied, lastMembership
        delqSeq := readU64 store (delqSeqKey m.group)
        inoSeq := readU64 store (inoSeqKey m.group)
        inlineBytes := guard.1
        inlineCount := guard.2.1
        totalBytes := guard.2.2
        entries := (store.snapshot m.range.keyRanges).filter fun e => m.range.contains e.2.1 }
    let record : SnapshotMeta :=
      { lastLogId := lastApplied, lastMembership
        snapshotId := "meta-snapshot-g" ++ toString m.group.toNat ++ "-i"
          ++ toString ((lastApplied.map LogId.index).getD 0).toNat ++ "-n" ++ toString n.toNat }
    .ok (data, record,
      store.applyBatch [WriteOp.put .Applied (snapshotKey m.group) (.Snapshot record)])

/-- The deletes of `install_snapshot`: everything within the machine's own byte bounds. -/
def clearOps (m : Machine) (store : MetaStore) : List StoreOp :=
  m.range.keyRanges.flatMap fun r =>
    (store.scanPages r.cf r.start r.stop 4096).map fun e => WriteOp.delete r.cf e.1

/-- The records `install_snapshot` writes. -/
def installRecords (m : Machine) (record : SnapshotMeta) (data : SnapshotData) : List StoreOp :=
  [match data.lastApplied with
    | some logId => WriteOp.put .Applied (appliedKey m.group) (.Applied logId)
    | none => WriteOp.delete .Applied (appliedKey m.group),
    WriteOp.put .Applied (membershipKey m.group) (.Members data.lastMembership),
    WriteOp.put .Applied (snapshotKey m.group) (.Snapshot record),
    WriteOp.put .Applied (delqSeqKey m.group) (.U64 data.delqSeq),
    WriteOp.put .Applied (inoSeqKey m.group) (.U64 data.inoSeq),
    WriteOp.put .Applied (guardKey m.group)
      (.GuardRecord data.inlineBytes data.inlineCount data.totalBytes)]

/-- `install_snapshot`: clear the range's byte bounds, write the snapshot's entries and records. -/
def installSnapshot (m : Machine) (store : MetaStore) (record : SnapshotMeta)
    (data : SnapshotData) : MetaStore × Machine :=
  let ops := m.clearOps store ++ data.entries.map (fun e => WriteOp.put e.1 e.2.1 e.2.2)
    ++ m.installRecords record data
  let store' := store.applyBatch ops
  (store',
    { m with
      delqNext := data.delqSeq
      inoNext := data.inoSeq
      guard := ⟨data.inlineBytes, data.inlineCount, data.totalBytes,
        countDelqEntries store' m.range⟩ })

end Machine

end Epoch
