import Epoch.Lib.Bytes
import Epoch.Lib.OrdMap

/-!
# Extents and their metadata (`epoch-proto/src/id.rs`, `extent/state.rs`, `index.rs`)

An extent id is a shard id and a creation time.  A shard slot is a shard id without its epoch, so the
ids of one slot share a binding.

Extent metadata is stored in a fixed 33-byte form.  Its decoder reads a prefix of the value and
ignores what follows.
-/

namespace Epoch

/-! ## Identifiers -/

/-- `ShardId`: chunk, index and a 24-bit epoch in 64 bits. -/
abbrev ShardId := UInt64

/-- `BlobId`: writer token and sequence number in 64 bits. -/
abbrev BlobId := UInt64

/-- The slot of a shard id, which is the key of its binding. -/
def shardPrefix (shard : ShardId) : UInt64 := shard &&& 0xFFFFFFFFFF000000

/-- `ExtentId`, ordered as its 16 bytes are. -/
structure ExtentId where
  shardId : ShardId
  createTs : Int64
deriving DecidableEq

namespace ExtentId

lemma order_injective :
    Function.Injective fun e : ExtentId => toLex (e.shardId, e.createTs.toUInt64) := by
  intro a b h
  obtain ⟨h1, h2⟩ := Prod.mk.injEq _ _ _ _ ▸ toLex_inj.mp h
  cases a
  cases b
  simp only [mk.injEq]
  refine ⟨h1, ?_⟩
  simpa using congrArg UInt64.toInt64 h2

instance : LinearOrder ExtentId := LinearOrder.lift' _ order_injective

end ExtentId

/-! ## Extent metadata -/

inductive ExtentStatus
  | Rebuilding
  | Writable
  | Full
  | Sealed
  | Dropped
deriving DecidableEq

namespace ExtentStatus

def toU8 : ExtentStatus → UInt8
  | Rebuilding => 0
  | Writable => 1
  | Full => 2
  | Sealed => 3
  | Dropped => 4

def fromU8 (value : UInt8) : Option ExtentStatus :=
  match value with
  | 0 => some Rebuilding
  | 1 => some Writable
  | 2 => some Full
  | 3 => some Sealed
  | 4 => some Dropped
  | _ => none

@[simp] lemma fromU8_toU8 (status : ExtentStatus) : fromU8 status.toU8 = some status := by
  cases status <;> rfl

lemma fromU8_eq_none_iff (value : UInt8) : fromU8 value = none ↔ 5 ≤ value := by
  revert value
  decide +kernel

end ExtentStatus

structure ExtentMeta where
  shardId : ShardId
  status : ExtentStatus
  size : UInt64
  deletedBytes : UInt64
  createTs : Int64
deriving DecidableEq

/-- `read_array::<n>(buf, at)`. -/
def readArray (n : ℕ) (buf : Bytes) (at_ : ℕ) : Bytes := (buf.drop at_).take n

/-- A field between two parts of a buffer. -/
lemma readArray_field {n at_ : ℕ} {p s : Bytes} (t : Bytes) (hp : p.length = at_)
    (hs : s.length = n) : readArray n (p ++ s ++ t) at_ = s := by
  rw [readArray, List.append_assoc, ← hp, List.drop_left, ← hs, List.take_left]

namespace ExtentMeta

def encode (m : ExtentMeta) : Bytes :=
  le64 m.shardId ++ [m.status.toU8] ++ le64 m.size ++ le64 m.deletedBytes
    ++ le64 m.createTs.toUInt64

def decodeValue (buf : Bytes) : Option ExtentMeta :=
  if buf.length < 33 then none
  else
    match ExtentStatus.fromU8 (buf.getD 8 0) with
    | none => none
    | some status =>
      some
        { shardId := UInt64.ofNat (leNat (readArray 8 buf 0))
          status
          size := UInt64.ofNat (leNat (readArray 8 buf 9))
          deletedBytes := UInt64.ofNat (leNat (readArray 8 buf 17))
          createTs := (UInt64.ofNat (leNat (readArray 8 buf 25))).toInt64 }

@[simp] lemma length_encode (m : ExtentMeta) : m.encode.length = 33 := by simp [encode]

lemma decodeValue_encode (m : ExtentMeta) : decodeValue m.encode = some m := by
  have h8 : m.encode.getD 8 0 = m.status.toU8 := by simp [encode]
  have hshard : readArray 8 m.encode 0 = le64 m.shardId := by
    simp only [encode, List.append_assoc]
    exact readArray_field (p := []) _ rfl (by simp)
  have hsize : readArray 8 m.encode 9 = le64 m.size := by
    rw [encode, List.append_assoc _ (le64 m.deletedBytes)]
    exact readArray_field _ (by simp) (by simp)
  have hdeleted : readArray 8 m.encode 17 = le64 m.deletedBytes :=
    readArray_field _ (by simp) (by simp)
  have hts : readArray 8 m.encode 25 = le64 m.createTs.toUInt64 := by
    rw [← List.append_nil m.encode]
    exact readArray_field _ (by simp) (by simp)
  rw [decodeValue, if_neg (by simp), h8, ExtentStatus.fromU8_toU8, hshard, hsize, hdeleted, hts]
  simp

end ExtentMeta

end Epoch
