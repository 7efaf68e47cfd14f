import Epoch.Lib.Chunks
import Epoch.Lib.KvStore
import Epoch.Lib.Saturating
import Epoch.Meta.Partition

/-!
# Stored values and shared namespace helpers
(`ns_common`, `ref_extractor`, `guard` and the record types of `ns_flat` and `ns_hier`)

Values are JSON in the engine.  Here a stored value is a `MetaValue`, one constructor per record
type, and decoding as a record type is the projection to it; a value of another shape fails to
decode, as it does in the code.  The projections follow `serde`, which ignores unknown fields: a
part and a pending delete both carry a `slices` field and decode as a slice segment too.

The content model is shared by both namespaces.  A slice list is split into the 64 slices the
head embeds and segments of 1024 (`splitSlices`), which loses and reorders nothing
(`splitSlices_slices`); captured slices are enqueued in chunks of 1024 under consecutive numbers.
-/

namespace Epoch

/-! ## Records -/

/-- One data reference: the blob ids of one stripe. -/
structure Slice where
  chunkId : UInt32
  blobIds : List UInt64
  blobSize : UInt32
deriving DecidableEq, Repr

/-- A captured batch of references awaiting tombstoning. -/
structure PendingDelete where
  slices : List Slice
  enqueueTs : Int64
deriving DecidableEq, Repr

inductive StorageClass
  | Standard
deriving DecidableEq, Repr

/-- HTTP metadata replayed on GET; `user` lists the `x-amz-meta-*` pairs in name order. -/
structure HttpMeta where
  contentType : Option String
  contentEncoding : Option String
  cacheControl : Option String
  user : List (String × String)
deriving DecidableEq, Repr

def HttpMeta.default : HttpMeta := ⟨none, none, none, []⟩

/-- Inline bytes, or the slice list (its first 64 once packed). -/
inductive ContentHead
  | Inline (bytes : Bytes)
  | Slices (slices : List Slice)
deriving DecidableEq, Repr

def ContentHead.intoSlices : ContentHead → List Slice
  | Inline _ => []
  | Slices slices => slices

/-- The `(inline_bytes, inline_count)` a content contributes to the inline guard. -/
def ContentHead.inlineAccount : ContentHead → UInt64 × UInt64
  | Inline bytes => (UInt64.ofNat bytes.length, 1)
  | Slices _ => (0, 0)

structure SliceSegment where
  slices : List Slice
deriving DecidableEq, Repr

/-- The primary record of a flat object. -/
structure ObjectHead where
  size : UInt64
  etag : BitVec 128
  mtime : Int64
  storage : StorageClass
  content : ContentHead
  segCount : UInt32
  http : HttpMeta
deriving DecidableEq, Repr

structure UploadSession where
  uploadId : BitVec 128
  initTs : Int64
deriving DecidableEq, Repr

structure PartMeta where
  size : UInt64
  etag : BitVec 128
  slices : List Slice
deriving DecidableEq, Repr

/-- The primary record of a hierarchical file. -/
structure FileRecord where
  ino : UInt64
  size : UInt64
  etag : BitVec 128
  mtime : Int64
  content : ContentHead
  segCount : UInt32
  http : HttpMeta
deriving DecidableEq, Repr

structure DirEntry where
  ino : UInt64
deriving DecidableEq, Repr

inductive DirCount
  | Exact (count : UInt64)
  | Unknown
deriving DecidableEq, Repr

/-- A directory's own attributes, stored at the empty name of its children's range. -/
structure DirRecord where
  ino : UInt64
  mtime : Int64
  entryCount : DirCount
  parentLink : Option (UInt64 × Bytes)
  createdTs : Int64
deriving DecidableEq, Repr

inductive FsRecord
  | File (file : FileRecord)
  | Dir (entry : DirEntry)
  | Sentinel (record : DirRecord)
deriving DecidableEq, Repr

/-! ## Raft bookkeeping records -/

structure LogId where
  term : UInt64
  nodeId : UInt64
  index : UInt64
deriving DecidableEq, Repr

structure Membership where
  configs : List (List UInt64)
  nodes : List (UInt64 × String)
deriving DecidableEq, Repr

structure StoredMembership where
  logId : Option LogId
  membership : Membership
deriving DecidableEq, Repr

def StoredMembership.default : StoredMembership := ⟨none, ⟨[], []⟩⟩

structure SnapshotMeta where
  lastLogId : Option LogId
  lastMembership : StoredMembership
  snapshotId : String
deriving DecidableEq, Repr

/-- The persisted pending-child record of a split. -/
structure PendingSplit where
  childGroup : UInt64
  childRange : PartitionRange
  childPeers : List (UInt64 × String)
  bootstrapNode : UInt64
deriving DecidableEq, Repr

/-! ## Stored values -/

inductive MetaValue
  | Head (head : ObjectHead)
  | Fs (record : FsRecord)
  | Segment (segment : SliceSegment)
  | Session (session : UploadSession)
  | Part (part : PartMeta)
  | Pending (pending : PendingDelete)
  | U64 (n : UInt64)
  | U32 (n : UInt32)
  | GuardRecord (inline count total : UInt64)
  | Range (range : PartitionRange)
  | Split (pending : PendingSplit)
  | Applied (logId : LogId)
  | Members (membership : StoredMembership)
  | Snapshot (record : SnapshotMeta)
  | Raw (bytes : Bytes)
deriving DecidableEq, Repr

namespace MetaValue

def head? : MetaValue → Option ObjectHead
  | Head h => some h
  | _ => none

def fs? : MetaValue → Option FsRecord
  | Fs r => some r
  | _ => none

def segment? : MetaValue → Option SliceSegment
  | Segment s => some s
  | Part p => some ⟨p.slices⟩
  | Pending p => some ⟨p.slices⟩
  | _ => none

def part? : MetaValue → Option PartMeta
  | Part p => some p
  | _ => none

def pending? : MetaValue → Option PendingDelete
  | Pending p => some p
  | _ => none

def u64? : MetaValue → Option UInt64
  | U64 n => some n
  | _ => none

def u32? : MetaValue → Option UInt32
  | U32 n => some n
  | _ => none

def range? : MetaValue → Option PartitionRange
  | Range r => some r
  | _ => none

def split? : MetaValue → Option PendingSplit
  | Split p => some p
  | _ => none

def logId? : MetaValue → Option LogId
  | Applied l => some l
  | _ => none

def members? : MetaValue → Option StoredMembership
  | Members m => some m
  | _ => none

end MetaValue

/-- `MetaStoreError::ValueCodec`; `none` stands for a message of `serde_json`'s own. -/
inductive MetaStoreError
  | ValueCodec (text : Option String)
deriving DecidableEq, Repr

/-- Decode a stored value as one record type. -/
def decode {α : Type} (as? : MetaValue → Option α) (v : MetaValue) : Except MetaStoreError α :=
  match as? v with
  | some a => .ok a
  | none => .error (.ValueCodec none)

/-- `EpochRefExtractor::extract`: the references held by a value of family `cf`. -/
def extract (cf : MetaCf) (v : MetaValue) : List Slice :=
  match cf with
  | .Meta => (v.head?.map fun h => h.content.intoSlices).getD []
  | .Fs =>
    match v.fs? with
    | some (.File file) => file.content.intoSlices
    | _ => []
  | .MetaSeg => (v.segment?.map SliceSegment.slices).getD []
  | .Upload => (v.part?.map PartMeta.slices).getD []
  | _ => []

/-! ## Batches and outcomes -/

abbrev MetaStore := KvStore MetaCf Bytes MetaValue

abbrev StoreOp := WriteOp MetaCf Bytes MetaValue

/-- The raft apply response. -/
inductive MetaResponse
  | None
  | Rejected (reason : String)
  | MintedIno (ino : UInt64)
deriving DecidableEq, Repr

def MetaResponse.accepted : MetaResponse → Bool
  | Rejected _ => false
  | _ => true

/-- The signed inline accounting of one op. -/
structure GuardDelta where
  inlineBytes : Int64
  inlineCount : Int64
  totalBytes : Int64
deriving DecidableEq, Repr

def GuardDelta.zero : GuardDelta := ⟨0, 0, 0⟩

structure ApplyOutcome where
  ops : List StoreOp
  response : MetaResponse
  delta : GuardDelta
deriving DecidableEq, Repr

def ApplyOutcome.noDelta (ops : List StoreOp) (response : MetaResponse) : ApplyOutcome :=
  ⟨ops, response, GuardDelta.zero⟩

/-- The per-partition inline accounting cell. -/
structure PartitionGuard where
  inlineBytes : UInt64
  inlineCount : UInt64
  totalBytes : UInt64
  delqDepth : UInt64
deriving DecidableEq, Repr

namespace PartitionGuard

def account (g : PartitionGuard) (delta : GuardDelta) : PartitionGuard :=
  { g with
    inlineBytes := saturatingAddSigned g.inlineBytes delta.inlineBytes
    inlineCount := saturatingAddSigned g.inlineCount delta.inlineCount
    totalBytes := saturatingAddSigned g.totalBytes delta.totalBytes }

def accountDelq (g : PartitionGuard) (delta : Int64) : PartitionGuard :=
  { g with delqDepth := saturatingAddSigned g.delqDepth delta }

end PartitionGuard

/-! ## Splitting slice lists -/

def HEAD_EMBEDDED_SLICES : ℕ := 64

def SEGMENT_SLICES : ℕ := 1024

/-- The head-embedded slices and the overflow segments of a slice list. -/
def splitSlices (slices : List Slice) : List Slice × List SliceSegment :=
  if slices.length ≤ HEAD_EMBEDDED_SLICES then (slices, [])
  else
    (slices.take HEAD_EMBEDDED_SLICES,
      (chunks SEGMENT_SLICES (slices.drop HEAD_EMBEDDED_SLICES)).map SliceSegment.mk)

/-- The longest list whose segments a `u32` can number. -/
def maxSlices : ℕ := HEAD_EMBEDDED_SLICES + SEGMENT_SLICES * (2 ^ 32 - 1)

lemma flatMap_mk_slices (cs : List (List Slice)) :
    (cs.map SliceSegment.mk).flatMap SliceSegment.slices = cs.flatten := by
  induction cs with
  | nil => rfl
  | cons c cs ih => rw [List.map_cons, List.flatMap_cons, ih, List.flatten_cons]

/-- **Splitting loses and reorders nothing.** -/
theorem splitSlices_slices (slices : List Slice) :
    (splitSlices slices).1 ++ (splitSlices slices).2.flatMap SliceSegment.slices = slices := by
  unfold splitSlices
  split
  · simp
  · rw [flatMap_mk_slices, flatten_chunks (by decide), List.take_append_drop]

lemma length_splitSlices_embedded (slices : List Slice) :
    (splitSlices slices).1.length ≤ HEAD_EMBEDDED_SLICES := by
  unfold splitSlices
  split
  · assumption
  · rw [List.length_take]
    exact Nat.min_le_left _ _

lemma splitSlices_of_le {slices : List Slice} (h : slices.length ≤ HEAD_EMBEDDED_SLICES) :
    splitSlices slices = (slices, []) := if_pos h

lemma length_splitSlices_segments {slices : List Slice} (h : slices.length ≤ maxSlices) :
    (splitSlices slices).2.length < 2 ^ 32 := by
  unfold splitSlices
  split
  · simp
  · rw [List.length_map]
    have hdrop : (slices.drop HEAD_EMBEDDED_SLICES).length ≤ SEGMENT_SLICES * (2 ^ 32 - 1) := by
      rw [List.length_drop]
      unfold maxSlices at h
      omega
    have := length_chunks_le_of_le_mul hdrop
    omega

/-! ## The delete queue -/

/-- The loop of `enqueue_delete_slices` over the chunks; the numbering wraps like a `u32`. -/
def enqueueChunks (delqKey : UInt32 → Bytes) (ts : Int64) :
    UInt32 → List (List Slice) → List StoreOp × UInt32
  | segNo, [] => ([], segNo)
  | segNo, chunk :: rest =>
    let r := enqueueChunks delqKey ts (segNo + 1) rest
    (WriteOp.put .Delq (delqKey segNo) (.Pending ⟨chunk, ts⟩) :: r.1, r.2)

/-- Enqueue `slices` in chunks numbered from `firstSegNo`; returns the next free number. -/
def enqueueDeleteSlices (firstSegNo : UInt32) (slices : List Slice) (ts : Int64)
    (delqKey : UInt32 → Bytes) : List StoreOp × UInt32 :=
  enqueueChunks delqKey ts firstSegNo (chunks SEGMENT_SLICES slices)

end Epoch
