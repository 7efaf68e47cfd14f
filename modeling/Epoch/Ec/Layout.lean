import Epoch.Lib.Bytes
import Epoch.Lib.Slices

/-!
# Stripes, units and frames (`layout.rs`, `frame.rs`)

A blob is cut into stripes of `stripeSize` bytes and each stripe into one unit per data shard, rounded
up to a multiple of 64 bytes.  A shard's body is one frame per stripe: the unit behind its hash.

Every function of the source that takes a stripe size requires it to be positive, and a code mode with
stripe size zero is not constructed; it is a `ℕ+` here.  Sizes are natural numbers.  The hash is a
parameter.
-/

namespace Epoch.Ec

def HASH_LEN : ℕ := 32
def SHARD_ALIGN : ℕ := 64

/-- The unit of a stripe of `stripeLen` bytes over `dataShards` shards. -/
def unitSize (stripeLen dataShards : ℕ) : ℕ := nextMultipleOf (stripeLen ⌈/⌉ dataShards) SHARD_ALIGN

def stripeCount (blobLen : ℕ) (stripeSize : ℕ+) : ℕ := blobLen ⌈/⌉ (stripeSize : ℕ)

def lastStripeLen (blobLen : ℕ) (stripeSize : ℕ+) : ℕ :=
  if blobLen = 0 then 0
  else if blobLen % stripeSize = 0 then stripeSize else blobLen % stripeSize

def shardLogicalLen (blobLen : ℕ) (stripeSize : ℕ+) (dataShards : ℕ) : ℕ :=
  let stripes := stripeCount blobLen stripeSize
  if stripes = 0 then 0
  else
    let unitFull := unitSize stripeSize dataShards
    let unitLast := unitSize (lastStripeLen blobLen stripeSize) dataShards
    (stripes - 1) * unitFull + unitLast

def shardPhysicalBlobLen (blobLen : ℕ) (stripeSize : ℕ+) (dataShards : ℕ) : ℕ :=
  stripeCount blobLen stripeSize * HASH_LEN + shardLogicalLen blobLen stripeSize dataShards

def frameOffset (stripeIdx unit : ℕ) : ℕ := stripeIdx * (HASH_LEN + unit)

section Sizes

variable {stripeLen dataShards : ℕ}

lemma shardAlign_dvd_unitSize (stripeLen dataShards : ℕ) :
    SHARD_ALIGN ∣ unitSize stripeLen dataShards :=
  (nextMultipleOf_spec _ (by decide)).2.2

lemma even_unitSize (stripeLen dataShards : ℕ) : unitSize stripeLen dataShards % 2 = 0 := by
  obtain ⟨k, hk⟩ := shardAlign_dvd_unitSize stripeLen dataShards
  rw [hk, SHARD_ALIGN]
  omega

/-- The units of a stripe have room for it. -/
lemma le_mul_unitSize (hdata : 0 < dataShards) (stripeLen : ℕ) :
    stripeLen ≤ dataShards * unitSize stripeLen dataShards :=
  (ceilDiv_le_iff_le_mul hdata).mp (nextMultipleOf_spec _ (by decide)).1

lemma unitSize_pos (hdata : 0 < dataShards) (hlen : 0 < stripeLen) :
    0 < unitSize stripeLen dataShards := by
  have hle := le_mul_unitSize hdata stripeLen
  by_contra hzero
  rw [Nat.eq_zero_of_not_pos hzero, Nat.mul_zero] at hle
  omega

end Sizes

section Stripes

variable {blobLen : ℕ} {stripeSize : ℕ+} {s : ℕ}

lemma lt_stripeCount_iff : s < stripeCount blobLen stripeSize ↔ stripeSize * s < blobLen := by
  rw [stripeCount, ← not_le, ceilDiv_le_iff_le_mul stripeSize.pos, not_le]

lemma le_mul_stripeCount (blobLen : ℕ) (stripeSize : ℕ+) :
    blobLen ≤ stripeCount blobLen stripeSize * stripeSize := by
  rw [Nat.mul_comm]
  exact (ceilDiv_le_iff_le_mul stripeSize.pos).mp le_rfl

/-- The bytes of a stripe of a blob. -/
def stripeLen (blobLen : ℕ) (stripeSize : ℕ+) (s : ℕ) : ℕ :=
  if s = stripeCount blobLen stripeSize - 1 then lastStripeLen blobLen stripeSize else stripeSize

/-- Every stripe but the last is full, and the last has the rest. -/
lemma stripeLen_eq (hs : s < stripeCount blobLen stripeSize) :
    stripeLen blobLen stripeSize s = min (stripeSize : ℕ) (blobLen - s * stripeSize) := by
  have hlt := lt_stripeCount_iff.mp hs
  have hpos := stripeSize.pos
  rw [Nat.mul_comm] at hlt
  unfold stripeLen
  split_ifs with hlast
  · have hle := le_mul_stripeCount blobLen stripeSize
    rw [show stripeCount blobLen stripeSize = s + 1 by omega, Nat.succ_mul] at hle
    obtain ⟨r, hr⟩ := Nat.exists_eq_add_of_lt hlt
    have hmod : blobLen % stripeSize = (r + 1) % stripeSize := by
      rw [hr, Nat.add_assoc, Nat.mul_comm, Nat.mul_add_mod]
    rw [lastStripeLen, if_neg (by omega), hmod]
    rcases Nat.lt_or_eq_of_le (show r + 1 ≤ stripeSize by omega) with hr' | hr'
    · rw [Nat.mod_eq_of_lt hr', if_neg (by omega)]
      omega
    · rw [hr', Nat.mod_self, if_pos rfl]
      omega
  · have hnext := lt_stripeCount_iff.mp (show s + 1 < stripeCount blobLen stripeSize by omega)
    rw [Nat.mul_succ, Nat.mul_comm] at hnext
    omega

lemma stripeLen_pos (hs : s < stripeCount blobLen stripeSize) :
    0 < stripeLen blobLen stripeSize s := by
  have hlt := lt_stripeCount_iff.mp hs
  have hpos := stripeSize.pos
  rw [Nat.mul_comm] at hlt
  rw [stripeLen_eq hs]
  omega

lemma stripeLen_of_lt (hs : s + 1 < stripeCount blobLen stripeSize) :
    stripeLen blobLen stripeSize s = stripeSize := if_neg (by omega)

end Stripes

/-! ## Frames -/

inductive FrameError
  | HashMismatch (index : ℕ)
  | Truncated (offset : ℕ)
deriving DecidableEq

section Frames

variable (blake3 : Bytes → Vector UInt8 32)

/-- The frame that `write_frame` appends. -/
def frame (data : Bytes) : Bytes := (blake3 data).toList ++ data

def writeFrame (data out : Bytes) : Bytes := out ++ frame blake3 data

def frameData (frame : Bytes) : Option Bytes :=
  if frame.length < HASH_LEN then none
  else if (blake3 (frame.drop HASH_LEN)).toList = frame.take HASH_LEN then some (frame.drop HASH_LEN)
  else none

def verifyFrame (frame : Bytes) : Except FrameError Bytes :=
  if frame.length < HASH_LEN then .error (.Truncated 0)
  else (frameData blake3 frame).elim (.error (.HashMismatch 0)) .ok

@[simp] lemma length_frame (data : Bytes) : (frame blake3 data).length = HASH_LEN + data.length := by
  simp [frame, HASH_LEN]

/-- A frame verifies. -/
lemma verifyFrame_frame (data : Bytes) : verifyFrame blake3 (frame blake3 data) = .ok data := by
  have hlen : (blake3 data).toList.length = HASH_LEN := by simp [HASH_LEN]
  have hdrop : (frame blake3 data).drop HASH_LEN = data := List.drop_left' hlen
  have htake : (frame blake3 data).take HASH_LEN = (blake3 data).toList := List.take_left' hlen
  have hge : ¬ (frame blake3 data).length < HASH_LEN := by simp
  rw [verifyFrame, if_neg hge, frameData, if_neg hge, hdrop, htake, if_pos rfl]
  rfl

end Frames

end Epoch.Ec
