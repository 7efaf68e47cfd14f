import Epoch.Lib.Chunks
import Epoch.Store.ExtentMeta
import Epoch.Gateway.Pipeline

/-!
# Writing and reading an object (`code.rs`, `gateway.rs`, `put.rs`, `get.rs`)

A PUT cuts the object into blobs and writes the shards of each blob in parallel.  It stops waiting when
`writeQuorum` of them committed; a chunk that does not get there is evicted and the whole blob is
written again elsewhere, under the same id.

What the world does to a PUT is an argument: which id is minted for a blob, which chunk is picked for
each attempt, how every shard write ends and in which order (`ShardEvent.answer`), and when a write
that was given up commits after all (`ShardEvent.late`).  A data node keeps the first body it got under
a blob id, and answers Ok to a second one (`World.commit`); the epoch of a shard id is not part of what
it keeps bodies under.
-/

namespace Epoch.Gateway

open Ec

abbrev NodeId := UInt32
abbrev ChunkId := UInt32

inductive EpochError
  | Sealed
  | ChunkFull
  | DiskBroken
  | ShardNotFound
  | NotLeader
  | PartitionMoved
  | Rebuilding
  | AlreadyExists
  | Busy
  | OutOfSpace
  | Internal
deriving DecidableEq

/-! ## Code modes -/

/-- A code mode that `CodeMode::new` accepts. -/
structure CodeMode where
  ec : Erasure
  stripeSize : ℕ+
  blobSize : ℕ
  sizing : stripeSize ≤ blobSize

namespace CodeMode

def new (data parity stripeSize blobSize : ℕ) : Except GatewayError CodeMode :=
  match Erasure.new data parity with
  | .error err => .error (.Ec err)
  | .ok ec =>
    if h : stripeSize = 0 ∨ blobSize < stripeSize then
      .error (.InvalidSizing stripeSize blobSize)
    else .ok ⟨ec, ⟨stripeSize, by omega⟩, blobSize, not_lt.mp (not_or.mp h).2⟩

def data (code : CodeMode) : ℕ := code.ec.data

def parity (code : CodeMode) : ℕ := code.ec.parity

def total (code : CodeMode) : ℕ := code.data + code.parity

def erasure (code : CodeMode) : Except GatewayError Erasure :=
  (Erasure.new code.data code.parity).mapError .Ec

def writeQuorum (code : CodeMode) : ℕ := code.total - max (code.parity / 2) 1

end CodeMode

/-! ## Placements -/

/-- `ShardId`, by its parts. -/
structure Shard where
  chunkId : ChunkId
  index : UInt8
  epoch : UInt32
deriving DecidableEq

structure ChunkPlacement where
  chunkId : ChunkId
  shards : List (Shard × NodeId)

structure BlobDesc where
  blobId : BlobId
  len : ℕ
  chunk : ChunkPlacement

structure ObjectLayout where
  size : ℕ
  code : CodeMode
  blobs : List BlobDesc

structure ResolvedShard where
  index : UInt8
  nodeId : NodeId
  epoch : UInt32

/-- A picked chunk; its slots are in the order of their indices (`ChunkMap::get`). -/
structure WritableChunk where
  chunkId : ChunkId
  slots : List ResolvedShard
  indexed : ∀ i (h : i < slots.length), (slots.get ⟨i, h⟩).index.toNat = i

def placementOf (writable : WritableChunk) : ChunkPlacement where
  chunkId := writable.chunkId
  shards := writable.slots.map fun shard =>
    (⟨writable.chunkId, shard.index, shard.epoch⟩, shard.nodeId)

/-! ## Data nodes -/

/-- What a data node keeps a body under. -/
structure Slot where
  node : NodeId
  chunk : ChunkId
  index : UInt8
  blob : BlobId
deriving DecidableEq

def slotOf (shard : Shard × NodeId) (blob : BlobId) : Slot :=
  ⟨shard.2, shard.1.chunkId, shard.1.index, blob⟩

/-- What the data nodes hold, and the shard writes that were started. -/
structure World where
  held : Slot → Option Bytes
  started : List (Slot × Bytes)

namespace World

/-- A node commits a write: the first body under a blob id is kept. -/
def commit (w : World) (slot : Slot) (body : Bytes) : World :=
  if (w.held slot).isSome then w else { w with held := Function.update w.held slot (some body) }

/-- A write that was started commits, if it did not yet. -/
def late (w : World) (k : ℕ) : World :=
  match w.started[k]? with
  | some (slot, body) => w.commit slot body
  | none => w

end World

/-- How a shard write ends for the task that joins it. -/
inductive Reply
  | committed
  | failed (err : EpochError)
  | timedOut
  | panicked
deriving DecidableEq

inductive ShardEvent
  | answer (j : ℕ) (reply : Reply)
  | late (k : ℕ)
deriving DecidableEq

/-! ## Writing -/

/-- The frames a shard body is sent in; the peer joins them. -/
def sendFrames : List ℕ → Bytes → List Bytes
  | [], _ => []
  | len :: lens, body => body.take len :: sendFrames lens (body.drop len)

/-- A joined task is counted, or its error is kept. -/
def joined (writes : List (Slot × Bytes)) (j : ℕ) (reply : Reply) (committed : ℕ)
    (errors : List EpochError) (w : World) : (ℕ × List EpochError) × World :=
  match reply with
  | .committed =>
    match writes[j]? with
    | some (slot, body) => ((committed + 1, errors), w.commit slot body)
    | none => ((committed, errors), w)
  | .failed err => ((committed, errors ++ [err]), w)
  | .timedOut => ((committed, errors ++ [.Busy]), w)
  | .panicked => ((committed, errors), w)

/-- The loop over the writes as they end, up to the quorum.  A write that no event mentions times
out. -/
def joinLoop (quorum : ℕ) (writes : List (Slot × Bytes)) :
    List ShardEvent → List ℕ → ℕ → List EpochError → World → (ℕ × List EpochError) × World
  | [], waiting, committed, errors, w =>
    ((committed, errors ++ waiting.map fun _ => .Busy), w)
  | event :: events, waiting, committed, errors, w =>
    if waiting = [] then ((committed, errors), w)
    else
      match event with
      | .late k => joinLoop quorum writes events waiting committed errors (w.late k)
      | .answer j reply =>
        if j ∈ waiting then
          let r := joined writes j reply committed errors w
          if r.1.1 ≥ quorum then r
          else joinLoop quorum writes events (waiting.erase j) r.1.1 r.1.2 r.2
        else joinLoop quorum writes events waiting committed errors w

section Put

variable (rs : ReedSolomon) (blake3 : Bytes → Vector UInt8 32)

def writeBlob (code : CodeMode) (chunk : ChunkPlacement) (ec : Erasure) (blobId : BlobId)
    (slice : Bytes) (events : List ShardEvent) (w : World) :
    Except GatewayError ((ℕ × List EpochError) × World) := do
  let bodies ← encodeBlob rs blake3 ec code.stripeSize slice
  let frameLens := stripeFrameLens slice.length code.stripeSize code.data
  let writes := List.zipWith
    (fun shard body => (slotOf shard blobId, (sendFrames frameLens body).flatten)) chunk.shards bodies
  return joinLoop code.writeQuorum writes events (List.range writes.length) 0 []
    { w with started := w.started ++ writes }

/-- An attempt to write a blob: the chunk that is picked, and how the shard writes go. -/
structure Attempt where
  picked : Option WritableChunk
  events : List ShardEvent

def MAX_BLOB_ATTEMPTS : ℕ := 3

def rewriteLoop (code : CodeMode) (ec : Erasure) (blobId : BlobId) (slice : Bytes) (quorum : ℕ) :
    ℕ → List Attempt → ℕ → Bool → World → Except GatewayError (ChunkPlacement × World)
  | 0, _, lastCommitted, lastOutOfSpace, _ =>
    if lastOutOfSpace then .error .OutOfSpace else .error (.QuorumNotMet quorum lastCommitted)
  | _ + 1, [], _, _, _ => .error .NoWritableChunk
  | n + 1, attempt :: attempts, lastCommitted, lastOutOfSpace, w =>
    match attempt.picked with
    | none => .error .NoWritableChunk
    | some writable =>
      let placement := placementOf writable
      if placement.shards.length ≠ code.total then
        rewriteLoop code ec blobId slice quorum n attempts lastCommitted lastOutOfSpace w
      else do
        let ((committed, errors), w) ←
          writeBlob rs blake3 code placement ec blobId slice attempt.events w
        if committed ≥ quorum then return (placement, w)
        else
          rewriteLoop code ec blobId slice quorum n attempts committed
            (errors.contains .OutOfSpace) w

def writeBlobWithRewrite (code : CodeMode) (ec : Erasure) (blobId : BlobId) (slice : Bytes)
    (quorum : ℕ) (attempts : List Attempt) (w : World) :
    Except GatewayError (ChunkPlacement × World) :=
  rewriteLoop rs blake3 code ec blobId slice quorum MAX_BLOB_ATTEMPTS attempts 0 false w

/-- What happens while a blob is written: the id that is minted, and the attempts. -/
structure BlobScript where
  blobId : Except String BlobId
  attempts : List Attempt

def putLoop (code : CodeMode) (ec : Erasure) :
    List Bytes → List BlobScript → World → Except GatewayError (List BlobDesc × World)
  | [], _, w => .ok ([], w)
  | _ :: _, [], _ => .error (.Writer "")
  | slice :: slices, script :: scripts, w => do
      let blobId ← script.blobId.mapError .Writer
      let (placement, w) ← writeBlobWithRewrite rs blake3 code ec blobId slice code.writeQuorum
        script.attempts w
      let (blobs, w) ← putLoop code ec slices scripts w
      return (⟨blobId, slice.length, placement⟩ :: blobs, w)

def putObject (code : CodeMode) (data : Bytes) (scripts : List BlobScript) (w : World) :
    Except GatewayError (ObjectLayout × World) := do
  let ec ← code.erasure
  let (blobs, w) ← putLoop rs blake3 code ec (chunks code.blobSize data) scripts w
  return (⟨data.length, code, blobs⟩, w)

/-! ## Reading -/

structure HealReport where
  chunkId : ChunkId
  index : UInt8
deriving DecidableEq

structure ReadObject where
  bytes : Bytes
  heals : List HealReport
deriving DecidableEq

/-- The bodies of a blob as the nodes return them; an error is a missing body. -/
def readBlobShards (read : Slot → Option Bytes) (chunk : ChunkPlacement) (blobId : BlobId) :
    List (Option Bytes) :=
  chunk.shards.map fun shard => read (slotOf shard blobId)

def getLoop (read : Slot → Option Bytes) (code : CodeMode) (ec : Erasure) :
    List BlobDesc → Bytes → OrdMap (ChunkId ×ₗ UInt8) Unit →
    Except GatewayError (Bytes × OrdMap (ChunkId ×ₗ UInt8) Unit)
  | [], out, heals => .ok (out, heals)
  | blob :: blobs, out, heals =>
    if blob.chunk.shards.length ≠ code.total then
      .error (.ShardCount code.total blob.chunk.shards.length)
    else do
      let decoded ← decodeBlob rs blake3 ec code.stripeSize blob.len
        (readBlobShards read blob.chunk blob.blobId)
      getLoop read code ec blobs (out ++ decoded.bytes)
        (decoded.healed.foldl
          (fun heals index => heals.insert (toLex (blob.chunk.chunkId, UInt8.ofNat index)) ()) heals)

def getObject (read : Slot → Option Bytes) (layout : ObjectLayout) :
    Except GatewayError ReadObject := do
  let ec ← layout.code.erasure
  let (out, heals) ← getLoop rs blake3 read layout.code ec layout.blobs [] OrdMap.empty
  if out.length ≠ layout.size then .error (.LengthMismatch layout.size out.length)
  else return ⟨out, heals.toList.map fun e => ⟨(ofLex e.1).1, (ofLex e.1).2⟩⟩

end Put

end Epoch.Gateway
