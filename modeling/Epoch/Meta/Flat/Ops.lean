import Epoch.Meta.Segments

/-!
# The flat namespace (`ns_flat/mod.rs`, `ns_flat/multipart.rs`)

The apply handlers read the store and return the batch to commit; nothing is written here.  Every
handler that replaces an object goes through `captureOld`, which enqueues the old object's slices
and deletes its segments, found by walking *every* segment key that carries the object's key.

`GetObjectMeta` is the read path: the head, then its segments by number.

BLAKE3 is an external crate; the etag of a completed upload is a function of it.
-/

namespace Epoch

/-- One entry of a Complete request's ordered part list. -/
structure PartRef where
  partNo : UInt32
  etag : BitVec 128
deriving DecidableEq, Repr

inductive FlatOp
  | Put (bucket : BucketId) (key : Bytes) (head : ObjectHead) (tsMillis : Int64)
  | Delete (bucket : BucketId) (key : Bytes) (tsMillis : Int64)
  | CreateMultipart (bucket : BucketId) (key : Bytes) (uploadId : BitVec 128) (tsMillis : Int64)
  | PutPart (bucket : BucketId) (key : Bytes) (uploadId : BitVec 128) (partNo : UInt32)
      (part : PartMeta) (tsMillis : Int64)
  | CompleteMultipart (bucket : BucketId) (key : Bytes) (uploadId : BitVec 128)
      (parts : List PartRef) (tsMillis : Int64)
  | AbortMultipart (bucket : BucketId) (key : Bytes) (uploadId : BitVec 128) (tsMillis : Int64)
deriving DecidableEq, Repr

namespace Flat

/-! ## Put and Delete -/

def headKey (bucket : BucketId) (key : Bytes) : Bytes := flatKey .Meta bucket key []

/-- The head/segment split of a new head. -/
def pack (head : ObjectHead) : ObjectHead × List SliceSegment :=
  match head.content with
  | .Inline _ => ({ head with segCount := 0 }, [])
  | .Slices slices =>
    let (embedded, segments) := splitSlices slices
    ({ head with
        content := .Slices embedded
        segCount := UInt32.ofNat segments.length }, segments)

def enqueueDeleteSlices (bucket : BucketId) (key : Bytes) (seq : UInt64) (firstSegNo : UInt32)
    (slices : List Slice) (ts : Int64) : List StoreOp × UInt32 :=
  Epoch.enqueueDeleteSlices firstSegNo slices ts (delqKey bucket key seq)

/-- What `capture_old` appends to the caller's batch, and what it returns. -/
structure CaptureOutcome where
  ops : List StoreOp
  account : UInt64 × UInt64 × UInt64
  nextSegNo : UInt32

/-- The segments a capture finds under an object's key. -/
def oldSegments (store : MetaStore) (bucket : BucketId) (key : Bytes) : List (Bytes × MetaValue) :=
  scanPrefix store .MetaSeg (flatKey .MetaSeg bucket key []) 1024

/-- The slices a capture collects: the head's, then every found segment's. -/
def captured (store : MetaStore) (bucket : BucketId) (key : Bytes) (oldHead : MetaValue) :
    List Slice :=
  extract .Meta oldHead
    ++ (oldSegments store bucket key).flatMap fun e => extract .MetaSeg e.2

def captureOld (store : MetaStore) (bucket : BucketId) (key : Bytes) (seq : UInt64) (ts : Int64) :
    CaptureOutcome :=
  match store.get .Meta (headKey bucket key) with
  | none => ⟨[], (0, 0, 0), 0⟩
  | some oldHead =>
    let account := match oldHead.head? with
      | some head => (head.content.inlineAccount.1, head.content.inlineAccount.2, head.size)
      | none => (0, 0, 0)
    let queued := enqueueDeleteSlices bucket key seq 0 (captured store bucket key oldHead) ts
    ⟨((oldSegments store bucket key).map fun e => WriteOp.delete .MetaSeg e.1) ++ queued.1,
      account, queued.2⟩

/-- The puts of a packed head and its segments, shared by Put and Complete. -/
def packedPuts (bucket : BucketId) (key : Bytes) (head : ObjectHead) : List StoreOp :=
  WriteOp.put .Meta (headKey bucket key) (.Head (pack head).1)
    :: segmentPuts (segmentKey bucket key) (pack head).2

def applyPut (store : MetaStore) (bucket : BucketId) (key : Bytes) (newHead : ObjectHead)
    (seq : UInt64) (ts : Int64) : ApplyOutcome :=
  let old := captureOld store bucket key seq ts
  let new := (pack newHead).1.content.inlineAccount
  ⟨old.ops ++ packedPuts bucket key newHead, .None,
    { inlineBytes := new.1.toInt64 - old.account.1.toInt64
      inlineCount := new.2.toInt64 - old.account.2.1.toInt64
      totalBytes := newHead.size.toInt64 - old.account.2.2.toInt64 }⟩

def applyDelete (store : MetaStore) (bucket : BucketId) (key : Bytes) (seq : UInt64)
    (ts : Int64) : ApplyOutcome :=
  let old := captureOld store bucket key seq ts
  ⟨old.ops ++ [WriteOp.delete .Meta (headKey bucket key)], .None,
    { inlineBytes := -old.account.1.toInt64
      inlineCount := -old.account.2.1.toInt64
      totalBytes := -old.account.2.2.toInt64 }⟩

/-! ## Multipart uploads -/

def uploadKey (bucket : BucketId) (key : Bytes) (uploadId : BitVec 128) (partNo : UInt32) :
    Bytes :=
  flatKey .Upload bucket key (uploadPartSuffix uploadId partNo)

/-- The prefix of every entry of one session. -/
def uploadPrefix (bucket : BucketId) (key : Bytes) (uploadId : BitVec 128) : Bytes :=
  flatKey .Upload bucket key (be128 uploadId)

/-- The part number inside an upload key: its last four bytes. -/
def partNoOf (key : Bytes) : Option UInt32 :=
  let s := key.drop (key.length - 4)
  if s.length = 4 then some (UInt32.ofNat (beNat s)) else none

/-- Every entry of one session: the session and all parts. -/
def scanSession (store : MetaStore) (bucket : BucketId) (key : Bytes) (uploadId : BitVec 128) :
    List (Bytes × MetaValue) :=
  scanPrefix store .Upload (uploadPrefix bucket key uploadId) 4096

def applyCreate (store : MetaStore) (bucket : BucketId) (key : Bytes) (uploadId : BitVec 128)
    (ts : Int64) : ApplyOutcome :=
  match store.get .Upload (uploadKey bucket key uploadId 0) with
  | some _ => .noDelta [] .None
  | none =>
    .noDelta [WriteOp.put .Upload (uploadKey bucket key uploadId 0) (.Session ⟨uploadId, ts⟩)]
      .None

def applyPutPart (store : MetaStore) (bucket : BucketId) (key : Bytes) (uploadId : BitVec 128)
    (partNo : UInt32) (part : PartMeta) (seq : UInt64) (ts : Int64) : ApplyOutcome :=
  match store.get .Upload (uploadKey bucket key uploadId 0) with
  | none => .noDelta [] (.Rejected "unknown upload id")
  | some _ =>
    let partKey := uploadKey bucket key uploadId partNo
    let capture := match store.get .Upload partKey with
      | some old => (enqueueDeleteSlices bucket key seq 0 (extract .Upload old) ts).1
      | none => []
    .noDelta (capture ++ [WriteOp.put .Upload partKey (.Part part)]) .None

/-- How the validation of a Complete's part list ends. -/
inductive Assembly
  | Rejected (reason : String)
  | Assembled (size : UInt64) (slices : List Slice)
deriving DecidableEq, Repr

/-- The validation loop of `apply_complete`, accumulating size and slices in listed order. -/
def assembleParts (store : MetaStore) (bucket : BucketId) (key : Bytes) (uploadId : BitVec 128) :
    List PartRef → UInt64 → List Slice → Except MetaStoreError Assembly
  | [], size, slices => .ok (.Assembled size slices)
  | ref :: rest, size, slices =>
    match store.get .Upload (uploadKey bucket key uploadId ref.partNo) with
    | none => .ok (.Rejected ("part " ++ toString ref.partNo ++ " missing"))
    | some raw =>
      match decode MetaValue.part? raw with
      | .error e => .error e
      | .ok part =>
        if part.etag ≠ ref.etag then
          .ok (.Rejected ("part " ++ toString ref.partNo ++ " etag mismatch"))
        else
          assembleParts store bucket key uploadId rest (saturatingAdd size part.size)
            (slices ++ part.slices)

/-- The slices a discarded entry gives up: those of a part that `abandoned` selects. -/
def abandonedSlices (abandoned : UInt32 → Bool) (entryKey : Bytes) (raw : MetaValue) :
    List Slice :=
  match partNoOf entryKey with
  | some partNo => if partNo ≠ 0 ∧ abandoned partNo then extract .Upload raw else []
  | none => []

/-- The session-discarding loop of Complete and Abort: delete every entry, enqueueing what it
gives up (an empty list enqueues nothing and takes no number). -/
def discardSession (bucket : BucketId) (key : Bytes) (seq : UInt64) (ts : Int64)
    (abandoned : UInt32 → Bool) : UInt32 → List (Bytes × MetaValue) → List StoreOp × UInt32
  | nextSegNo, [] => ([], nextSegNo)
  | nextSegNo, (entryKey, raw) :: rest =>
    let queued := enqueueDeleteSlices bucket key seq nextSegNo
      (abandonedSlices abandoned entryKey raw) ts
    let r := discardSession bucket key seq ts abandoned queued.2 rest
    (queued.1 ++ WriteOp.delete .Upload entryKey :: r.1, r.2)

/-- The first 16 bytes of the digest of the concatenated part etags. -/
def multipartEtag (blake3 : Bytes → BitVec 256) (parts : List PartRef) : BitVec 128 :=
  (blake3 (parts.flatMap fun p => be128 p.etag)).extractLsb' 128 128

/-- The head a Complete writes, before packing. -/
def completedHead (blake3 : Bytes → BitVec 256) (parts : List PartRef) (size : UInt64)
    (slices : List Slice) (ts : Int64) : ObjectHead where
  size := size
  etag := multipartEtag blake3 parts
  mtime := ts
  storage := .Standard
  content := .Slices slices
  segCount := 0
  http := HttpMeta.default

def applyComplete (blake3 : Bytes → BitVec 256) (store : MetaStore) (bucket : BucketId)
    (key : Bytes) (uploadId : BitVec 128) (parts : List PartRef) (seq : UInt64) (ts : Int64) :
    Except MetaStoreError ApplyOutcome :=
  match store.get .Upload (uploadKey bucket key uploadId 0) with
  | none => .ok (.noDelta [] (.Rejected "unknown upload id"))
  | some _ =>
    if parts = [] then .ok (.noDelta [] (.Rejected "empty part list"))
    else
      match assembleParts store bucket key uploadId parts 0 [] with
      | .error e => .error e
      | .ok (.Rejected reason) => .ok (.noDelta [] (.Rejected reason))
      | .ok (.Assembled size slices) =>
        let old := captureOld store bucket key seq ts
        let listed := parts.map PartRef.partNo
        -- unlisted parts continue the capture's numbering under the same `seq`
        let discarded := discardSession bucket key seq ts (fun p => p ∉ listed) old.nextSegNo
          (scanSession store bucket key uploadId)
        .ok ⟨old.ops ++ discarded.1
            ++ packedPuts bucket key (completedHead blake3 parts size slices ts), .None,
          { inlineBytes := -old.account.1.toInt64
            inlineCount := -old.account.2.1.toInt64
            totalBytes := size.toInt64 - old.account.2.2.toInt64 }⟩

def applyAbort (store : MetaStore) (bucket : BucketId) (key : Bytes) (uploadId : BitVec 128)
    (seq : UInt64) (ts : Int64) : ApplyOutcome :=
  match store.get .Upload (uploadKey bucket key uploadId 0) with
  | none => .noDelta [] .None
  | some _ =>
    .noDelta (discardSession bucket key seq ts (fun _ => true) 0
      (scanSession store bucket key uploadId)).1 .None

/-- `ns_flat::apply`. -/
def apply (blake3 : Bytes → BitVec 256) (store : MetaStore) (op : FlatOp) (seq : UInt64) :
    Except MetaStoreError ApplyOutcome :=
  match op with
  | .Put bucket key head ts => .ok (applyPut store bucket key head seq ts)
  | .Delete bucket key ts => .ok (applyDelete store bucket key seq ts)
  | .CreateMultipart bucket key uploadId ts => .ok (applyCreate store bucket key uploadId ts)
  | .PutPart bucket key uploadId partNo part ts =>
    .ok (applyPutPart store bucket key uploadId partNo part seq ts)
  | .CompleteMultipart bucket key uploadId parts ts =>
    applyComplete blake3 store bucket key uploadId parts seq ts
  | .AbortMultipart bucket key uploadId ts => .ok (applyAbort store bucket key uploadId seq ts)

/-! ## Reads -/

def getHead (store : MetaStore) (bucket : BucketId) (key : Bytes) :
    Except MetaStoreError (Option ObjectHead) :=
  match store.get .Meta (headKey bucket key) with
  | none => .ok none
  | some v => (decode MetaValue.head? v).map some

def getSegment (store : MetaStore) (bucket : BucketId) (key : Bytes) (segNo : UInt32) :
    Except MetaStoreError (Option SliceSegment) :=
  segmentAt store (segmentKey bucket key segNo)

/-- The wire view of a head. -/
structure ObjectHeadView where
  size : UInt64
  etag : BitVec 128
  mtime : Int64
  inline : Bool
  embeddedSlices : UInt32
  segCount : UInt32
  contentType : String
  contentEncoding : String
  cacheControl : String
  userMetadata : List (String × String)
deriving DecidableEq, Repr

def headToProto (head : ObjectHead) : ObjectHeadView where
  size := head.size
  etag := head.etag
  mtime := head.mtime
  inline := match head.content with
    | .Inline _ => true
    | .Slices _ => false
  embeddedSlices := match head.content with
    | .Inline _ => 0
    | .Slices slices => UInt32.ofNat slices.length
  segCount := head.segCount
  contentType := head.http.contentType.getD ""
  contentEncoding := head.http.contentEncoding.getD ""
  cacheControl := head.http.cacheControl.getD ""
  userMetadata := head.http.user

structure ObjectMetaResponse where
  head : ObjectHeadView
  inlineData : Bytes
  slices : List Slice
deriving DecidableEq, Repr

/-- `get_object_meta` behind routing and the leadership check; `none` is "not found". -/
def getObjectMeta (store : MetaStore) (bucket : BucketId) (key : Bytes) :
    Except ReadError (Option ObjectMetaResponse) :=
  match getHead store bucket key with
  | .error e => .error (.Head e)
  | .ok none => .ok none
  | .ok (some head) =>
    match head.content with
    | .Inline bytes => .ok (some ⟨headToProto head, bytes, []⟩)
    | .Slices embedded =>
      match readSegments store (segmentKey bucket key) head.segCount.toNat 0 embedded with
      | .error e => .error e
      | .ok slices => .ok (some ⟨headToProto head, [], slices⟩)

end Flat

/-- A Put of a head over `n` distinct slices. -/
def demoPut (key : Bytes) (n : ℕ) : FlatOp :=
  .Put 1 key
    { size := 0, etag := 0, mtime := 0, storage := .Standard, segCount := 0
      content := .Slices ((List.range n).map fun i => ⟨UInt32.ofNat i, [], 0⟩)
      http := HttpMeta.default } 0

end Epoch
