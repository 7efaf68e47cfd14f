import Epoch.Ec.Layout
import Epoch.Ec.Erasure

/-!
# Coding a blob (`pipeline.rs`)

`encodeBlob` cuts a blob into stripes, codes each stripe and appends the frame of every unit to its
shard's body; `decodeBlob` reads the frames back, drops those that are missing or fail their hash, and
reconstructs.

* `Coded units`: the units of every stripe, of which the bodies are the frames (`encodeBlob_ok`);
* `decodeStripe_ok`: with `data` intact frames a stripe is restored, whatever the others are;
* `erasure_round_trip`: the blob comes back from every damage that leaves `data` frames of each stripe
  intact, and the healed shards are those with a damaged frame.
-/

namespace Epoch.Gateway

open Ec

inductive GatewayError
  | Ec (error : EcError)
  | InvalidSizing (stripeSize blobSize : ℕ)
  | ShardCount (need got : ℕ)
  | QuorumNotMet (need got : ℕ)
  | NoWritableChunk
  | Writer (message : String)
  | OutOfSpace
  | LengthMismatch (expected got : ℕ)
deriving DecidableEq

def stripeFrameLens (blobLen : ℕ) (stripeSize : ℕ+) (dataShards : ℕ) : List ℕ :=
  let stripes := stripeCount blobLen stripeSize
  if stripes = 0 then []
  else
    let unitFull := unitSize stripeSize dataShards
    (List.range stripes).map fun s =>
      let unit :=
        if s = stripes - 1 then unitSize (lastStripeLen blobLen stripeSize) dataShards else unitFull
      HASH_LEN + unit

/-- The units of a stripe, the last ones filled up with zeros. -/
def dataUnits (n unit : ℕ) (stripe : Bytes) : List Bytes :=
  (List.range n).map fun i =>
    let part := (stripe.drop (i * unit)).take unit
    part ++ List.replicate (unit - part.length) 0

structure DecodedBlob where
  bytes : Bytes
  healed : List ℕ
deriving DecidableEq

section Pipeline

variable (rs : ReedSolomon) (blake3 : Bytes → Vector UInt8 32) (ec : Erasure) (stripeSize : ℕ+)

def stripeOf (blob : Bytes) (s : ℕ) : Bytes := (blob.drop (s * stripeSize)).take stripeSize

def encodeStripe (blob : Bytes) (bodies : List Bytes) (s : ℕ) :
    Except GatewayError (List Bytes) := do
  let stripe := stripeOf stripeSize blob s
  let units := dataUnits ec.data (unitSize stripe.length ec.data) stripe
  let parity ← (ec.encode rs units).mapError .Ec
  return List.zipWith (fun body u => writeFrame blake3 u body) bodies (units ++ parity)

def encodeBlob (blob : Bytes) : Except GatewayError (List Bytes) :=
  (List.range (stripeCount blob.length stripeSize)).foldlM (encodeStripe rs blake3 ec stripeSize blob)
    (List.replicate ec.totalShards [])

/-- The frame of a stripe in a body; every stripe before it is full. -/
def frameAt (blobLen : ℕ) (body : Option Bytes) (s : ℕ) : Option Bytes :=
  body.bind fun b => slice b (frameOffset s (unitSize stripeSize ec.data))
    (HASH_LEN + unitSize (stripeLen blobLen stripeSize s) ec.data)

/-- The unit of a stripe in a body, if its frame is there and verifies. -/
def unitAt (blobLen : ℕ) (body : Option Bytes) (s : ℕ) : Option Bytes :=
  (frameAt ec stripeSize blobLen body s).bind fun frame => (verifyFrame blake3 frame).toOption

def decodeStripe (blobLen : ℕ) (bodies : List (Option Bytes)) (state : Bytes × List Bool) (s : ℕ) :
    Except GatewayError (Bytes × List Bool) := do
  let units := bodies.map fun body => unitAt blake3 ec stripeSize blobLen body s
  let bad := List.zipWith (fun b u => b || u.isNone) state.2 units
  let shards ← (ec.reconstruct rs units).mapError .Ec
  -- every data unit is there after a reconstruction
  let stripeData := (shards.take ec.data).flatMap fun u => u.getD []
  return (state.1 ++ stripeData.take (stripeLen blobLen stripeSize s), bad)

def decodeBlob (blobLen : ℕ) (bodies : List (Option Bytes)) : Except GatewayError DecodedBlob :=
  if bodies.length ≠ ec.totalShards then .error (.ShardCount ec.totalShards bodies.length)
  else if blobLen = 0 then .ok ⟨[], []⟩
  else do
    let (out, bad) ← (List.range (stripeCount blobLen stripeSize)).foldlM
      (decodeStripe rs blake3 ec stripeSize blobLen bodies)
      ([], List.replicate ec.totalShards false)
    if out.length ≠ blobLen then .error (.LengthMismatch blobLen out.length)
    else return ⟨out, (List.range ec.totalShards).filter fun j => bad.getD j false⟩

/-! ## Lengths -/

lemma stripeFrameLens_eq (blobLen : ℕ) (stripeSize : ℕ+) (dataShards : ℕ) :
    stripeFrameLens blobLen stripeSize dataShards
      = (List.range (stripeCount blobLen stripeSize)).map fun s =>
        HASH_LEN + unitSize (stripeLen blobLen stripeSize s) dataShards := by
  unfold stripeFrameLens
  by_cases hzero : stripeCount blobLen stripeSize = 0
  · simp [hzero]
  · simp only [if_neg hzero]
    refine List.map_congr_left fun s _ => ?_
    unfold stripeLen
    split_ifs <;> rfl

lemma sum_map_range_const {f : ℕ → ℕ} {c k : ℕ} (h : ∀ s < k, f s = c) :
    ((List.range k).map f).sum = k * c := by
  rw [List.map_congr_left fun s hs => h s (List.mem_range.mp hs), List.map_const',
    List.length_range, List.sum_replicate, smul_eq_mul]

/-- A body is as long as its frames. -/
lemma shardPhysicalBlobLen_eq_sum (blobLen : ℕ) (stripeSize : ℕ+) (dataShards : ℕ) :
    shardPhysicalBlobLen blobLen stripeSize dataShards
      = (stripeFrameLens blobLen stripeSize dataShards).sum := by
  rw [stripeFrameLens_eq, shardPhysicalBlobLen, shardLogicalLen]
  cases hk : stripeCount blobLen stripeSize with
  | zero => simp
  | succ k =>
    have hfull : ∀ s < k, HASH_LEN + unitSize (stripeLen blobLen stripeSize s) dataShards
        = HASH_LEN + unitSize stripeSize dataShards := by
      intro s hs
      rw [stripeLen_of_lt (by omega)]
    have hlast : stripeLen blobLen stripeSize k = lastStripeLen blobLen stripeSize :=
      if_pos (by omega)
    rw [if_neg (Nat.succ_ne_zero k), Nat.add_sub_cancel, List.range_succ, List.map_append,
      List.sum_append, sum_map_range_const hfull, List.map_singleton, List.sum_singleton, hlast]
    ring

/-! ## Encoding -/

section Encode

variable {rs ec stripeSize} {blob : Bytes} {s : ℕ}

lemma length_stripeOf (hs : s < stripeCount blob.length stripeSize) :
    (stripeOf stripeSize blob s).length = stripeLen blob.length stripeSize s := by
  rw [stripeOf, List.length_take, List.length_drop, stripeLen_eq hs]

lemma length_dataUnits (n unit : ℕ) (stripe : Bytes) :
    (dataUnits n unit stripe).length = n := by
  simp [dataUnits]

lemma length_of_mem_dataUnits {n unit : ℕ} {stripe u : Bytes} (hu : u ∈ dataUnits n unit stripe) :
    u.length = unit := by
  obtain ⟨i, -, rfl⟩ := List.mem_map.mp hu
  simp only [List.length_append, List.length_take, List.length_drop, List.length_replicate]
  omega

/-- The units of a stripe start with the stripe. -/
lemma take_flatten_dataUnits {n : ℕ} (hn : 0 < n) (stripe : Bytes) :
    (dataUnits n (unitSize stripe.length n) stripe).flatten.take stripe.length = stripe := by
  rw [dataUnits, ← List.flatMap_def]
  exact take_flatMap_filled 0 (le_mul_unitSize hn stripe.length)

/-- The units of every stripe: the data units, and their recovery units. -/
structure Coded (rs : ReedSolomon) (ec : Erasure) (stripeSize : ℕ+) (blob : Bytes)
    (units : ℕ → List Bytes) : Prop where
  data : ∀ s < stripeCount blob.length stripeSize, (units s).take ec.data
    = dataUnits ec.data (unitSize (stripeLen blob.length stripeSize s) ec.data)
      (stripeOf stripeSize blob s)
  code : ∀ s < stripeCount blob.length stripeSize,
    rs.encode ec.data ec.parity ((units s).take ec.data) = .ok ((units s).drop ec.data)
  total : ∀ s < stripeCount blob.length stripeSize, (units s).length = ec.totalShards
  unit : ∀ s < stripeCount blob.length stripeSize, ∀ u ∈ units s,
    u.length = unitSize (stripeLen blob.length stripeSize s) ec.data

lemma unit_ne_zero (ec : Erasure) (hs : s < stripeCount blob.length stripeSize) :
    unitSize (stripeLen blob.length stripeSize s) ec.data ≠ 0 :=
  (unitSize_pos ec.data_pos (stripeLen_pos hs)).ne'

lemma exists_coded (hrs : rs.Reconstructs ec.data ec.parity) (stripeSize : ℕ+) (blob : Bytes) :
    ∃ units, Coded rs ec stripeSize blob units := by
  have hstripe : ∀ s, ∃ all : List Bytes, s < stripeCount blob.length stripeSize →
      all.take ec.data = dataUnits ec.data (unitSize (stripeLen blob.length stripeSize s) ec.data)
          (stripeOf stripeSize blob s)
        ∧ rs.encode ec.data ec.parity (all.take ec.data) = .ok (all.drop ec.data)
        ∧ all.length = ec.totalShards
        ∧ ∀ u ∈ all, u.length = unitSize (stripeLen blob.length stripeSize s) ec.data := by
    intro s
    by_cases hs : s < stripeCount blob.length stripeSize
    · obtain ⟨recovery, hcode, hcount, hlen⟩ := hrs.encode_ok
        (dataUnits ec.data (unitSize (stripeLen blob.length stripeSize s) ec.data)
          (stripeOf stripeSize blob s)) _ (length_dataUnits _ _ _)
        (fun u hu => length_of_mem_dataUnits hu) (unit_ne_zero ec hs) (even_unitSize _ _)
      refine ⟨_ ++ recovery, fun _ => ⟨List.take_left' (length_dataUnits _ _ _), ?_, ?_, ?_⟩⟩
      · rw [List.take_left' (length_dataUnits _ _ _), List.drop_left' (length_dataUnits _ _ _)]
        exact hcode
      · rw [List.length_append, length_dataUnits, hcount]
        rfl
      · intro u hu
        exact (List.mem_append.mp hu).elim length_of_mem_dataUnits (hlen u)
    · exact ⟨[], fun h => absurd h hs⟩
  choose units hunits using hstripe
  exact ⟨units, fun s hs => (hunits s hs).1, fun s hs => (hunits s hs).2.1,
    fun s hs => (hunits s hs).2.2.1, fun s hs => (hunits s hs).2.2.2⟩

variable {units : ℕ → List Bytes}

/-- The first `k` frames of a shard's body. -/
def bodyOf (blake3 : Bytes → Vector UInt8 32) (units : ℕ → List Bytes) (k j : ℕ) : Bytes :=
  (List.range k).flatMap fun s => frame blake3 ((units s).getD j [])

lemma bodyOf_succ (units : ℕ → List Bytes) (k j : ℕ) :
    bodyOf blake3 units (k + 1) j = writeFrame blake3 ((units k).getD j []) (bodyOf blake3 units k j) := by
  rw [bodyOf, List.range_succ, List.flatMap_append, List.flatMap_singleton]
  rfl

lemma encodeStripe_ok (hrs : rs.Reconstructs ec.data ec.parity)
    (h : Coded rs ec stripeSize blob units) (hs : s < stripeCount blob.length stripeSize) :
    encodeStripe rs blake3 ec stripeSize blob
        ((List.range ec.totalShards).map (bodyOf blake3 units s)) s
      = .ok ((List.range ec.totalShards).map (bodyOf blake3 units (s + 1))) := by
  obtain ⟨recovery, hok, hcode, -⟩ := Erasure.encode_ok hrs (length_dataUnits ec.data
    (unitSize (stripeLen blob.length stripeSize s) ec.data) (stripeOf stripeSize blob s))
    (fun u hu => length_of_mem_dataUnits hu) (unit_ne_zero ec hs) (even_unitSize _ _)
  have hdrop : (units s).drop ec.data = recovery := by
    have hcode' := h.code s hs
    rw [h.data s hs, hcode] at hcode'
    exact (Except.ok.inj hcode').symm
  have hall : dataUnits ec.data (unitSize (stripeLen blob.length stripeSize s) ec.data)
      (stripeOf stripeSize blob s) ++ recovery = units s := by
    rw [← h.data s hs, ← hdrop, List.take_append_drop]
  unfold encodeStripe
  simp only [length_stripeOf hs, hok, Except.mapError]
  show Except.ok (List.zipWith (fun body u => writeFrame blake3 u body)
    ((List.range ec.totalShards).map (bodyOf blake3 units s)) (_ ++ recovery)) = _
  rw [hall]
  congr 1
  refine List.ext_getElem (by simp [h.total s hs]) fun j hj _ => ?_
  have hj' : j < (units s).length := by
    rw [List.length_zipWith] at hj
    omega
  rw [List.getElem_zipWith, List.getElem_map, List.getElem_map, List.getElem_range, bodyOf_succ,
    List.getD_eq_getElem _ _ hj']

/-- The bodies are the frames of the units. -/
lemma encodeBlob_ok (hrs : rs.Reconstructs ec.data ec.parity)
    (h : Coded rs ec stripeSize blob units) :
    encodeBlob rs blake3 ec stripeSize blob = .ok ((List.range ec.totalShards).map
      (bodyOf blake3 units (stripeCount blob.length stripeSize))) := by
  have hloop : ∀ k ≤ stripeCount blob.length stripeSize,
      (List.range k).foldlM (encodeStripe rs blake3 ec stripeSize blob)
          (List.replicate ec.totalShards [])
        = .ok ((List.range ec.totalShards).map (bodyOf blake3 units k)) := by
    intro k
    induction k with
    | zero =>
      intro _
      have hempty : (List.range ec.totalShards).map (bodyOf blake3 units 0)
          = List.replicate ec.totalShards [] := by
        rw [List.eq_replicate_iff]
        simp [bodyOf]
      rw [hempty]
      rfl
    | succ k ih =>
      intro hk
      rw [List.range_succ, List.foldlM_append, ih (by omega)]
      show (List.foldlM _ _ [k] : Except GatewayError (List Bytes)) = _
      rw [List.foldlM_cons, encodeStripe_ok blake3 hrs h (by omega)]
      rfl
  exact hloop _ le_rfl

variable {j : ℕ}

lemma length_unit (h : Coded rs ec stripeSize blob units)
    (hs : s < stripeCount blob.length stripeSize) (hj : j < ec.totalShards) :
    ((units s).getD j []).length = unitSize (stripeLen blob.length stripeSize s) ec.data := by
  have hj' : j < (units s).length := by rwa [h.total s hs]
  rw [List.getD_eq_getElem _ _ hj']
  exact h.unit s hs _ (List.getElem_mem hj')

lemma length_bodyOf (h : Coded rs ec stripeSize blob units) (hj : j < ec.totalShards) :
    (bodyOf blake3 units (stripeCount blob.length stripeSize) j).length
      = shardPhysicalBlobLen blob.length stripeSize ec.data := by
  rw [shardPhysicalBlobLen_eq_sum, stripeFrameLens_eq, bodyOf, List.length_flatMap]
  congr 1
  refine List.map_congr_left fun s hs => ?_
  rw [length_frame, length_unit h (List.mem_range.mp hs) hj]

/-- A body has the frame of each stripe in its place. -/
lemma frameAt_bodyOf (h : Coded rs ec stripeSize blob units)
    (hs : s < stripeCount blob.length stripeSize) (hj : j < ec.totalShards) :
    frameAt ec stripeSize blob.length
        (some (bodyOf blake3 units (stripeCount blob.length stripeSize) j)) s
      = some (frame blake3 ((units s).getD j [])) := by
  have hoffset : ((List.range s).flatMap fun s => frame blake3 ((units s).getD j [])).length
      = frameOffset s (unitSize stripeSize ec.data) := by
    refine length_flatMap_const fun t ht => ?_
    rw [length_frame, length_unit h (by omega) hj, stripeLen_of_lt (by omega)]
  have hlen : (frame blake3 ((units s).getD j [])).length
      = HASH_LEN + unitSize (stripeLen blob.length stripeSize s) ec.data := by
    rw [length_frame, length_unit h hs hj]
  rw [frameAt, Option.bind_some, ← hoffset, ← hlen]
  exact slice_flatMap _ hs

end Encode

/-! ## Decoding -/

section Decode

variable {rs ec stripeSize}

/-- The frame of a stripe in a shard's body is as it was written. -/
def Intact (ec : Erasure) (stripeSize : ℕ+) (blobLen : ℕ) (bodies : List Bytes)
    (damaged : List (Option Bytes)) (j s : ℕ) : Prop :=
  frameAt ec stripeSize blobLen (damaged[j]?.join) s = frameAt ec stripeSize blobLen bodies[j]? s

instance (ec : Erasure) (stripeSize : ℕ+) (blobLen : ℕ) (bodies : List Bytes)
    (damaged : List (Option Bytes)) (j s : ℕ) :
    Decidable (Intact ec stripeSize blobLen bodies damaged j s) := inferInstanceAs (Decidable (_ = _))

/-- A shard has a damaged frame among the first `k`. -/
def DamagedBefore (ec : Erasure) (stripeSize : ℕ+) (blobLen : ℕ) (bodies : List Bytes)
    (damaged : List (Option Bytes)) (k j : ℕ) : Prop :=
  ∃ s < k, ¬ Intact ec stripeSize blobLen bodies damaged j s

instance (ec : Erasure) (stripeSize : ℕ+) (blobLen : ℕ) (bodies : List Bytes)
    (damaged : List (Option Bytes)) (k j : ℕ) :
    Decidable (DamagedBefore ec stripeSize blobLen bodies damaged k j) :=
  inferInstanceAs (Decidable (∃ s, s < k ∧ _))

/-- What happened to the bodies: a frame is intact, or it is not there (the body is missing or too
short) or fails its hash. -/
structure Damage (blake3 : Bytes → Vector UInt8 32) (ec : Erasure) (stripeSize : ℕ+) (blobLen : ℕ)
    (bodies : List Bytes) (damaged : List (Option Bytes)) : Prop where
  length : damaged.length = bodies.length
  frames : ∀ j < bodies.length, ∀ s < stripeCount blobLen stripeSize,
    Intact ec stripeSize blobLen bodies damaged j s
      ∨ unitAt blake3 ec stripeSize blobLen (damaged[j]?.join) s = none

variable {blob : Bytes} {units : ℕ → List Bytes} {damaged : List (Option Bytes)} {s : ℕ}

/-- The bodies of a blob. -/
def bodiesOf (blake3 : Bytes → Vector UInt8 32) (ec : Erasure) (stripeSize : ℕ+) (blob : Bytes)
    (units : ℕ → List Bytes) : List Bytes :=
  (List.range ec.totalShards).map (bodyOf blake3 units (stripeCount blob.length stripeSize))

@[simp] lemma length_bodiesOf (blob : Bytes) (units : ℕ → List Bytes) :
    (bodiesOf blake3 ec stripeSize blob units).length = ec.totalShards := by
  simp [bodiesOf]

/-- An intact frame gives its unit, any other none. -/
lemma unitAt_damaged (h : Coded rs ec stripeSize blob units)
    (hdamage : Damage blake3 ec stripeSize blob.length (bodiesOf blake3 ec stripeSize blob units)
      damaged) (hs : s < stripeCount blob.length stripeSize) {j : ℕ} (hj : j < ec.totalShards) :
    unitAt blake3 ec stripeSize blob.length (damaged[j]?.join) s
      = if Intact ec stripeSize blob.length (bodiesOf blake3 ec stripeSize blob units) damaged j s
        then some ((units s).getD j []) else none := by
  split_ifs with hintact
  · have hbody : (bodiesOf blake3 ec stripeSize blob units)[j]?
        = some (bodyOf blake3 units (stripeCount blob.length stripeSize) j) := by
      rw [bodiesOf, List.getElem?_map, List.getElem?_range hj]
      rfl
    rw [Intact, hbody, frameAt_bodyOf blake3 h hs hj] at hintact
    rw [unitAt, hintact, Option.bind_some, verifyFrame_frame]
    rfl
  · exact (hdamage.frames j (by simpa using hj) s hs).resolve_left hintact

/-- The units read of a stripe. -/
lemma map_unitAt_damaged (h : Coded rs ec stripeSize blob units)
    (hdamage : Damage blake3 ec stripeSize blob.length (bodiesOf blake3 ec stripeSize blob units)
      damaged) (hs : s < stripeCount blob.length stripeSize) :
    (damaged.map fun body => unitAt blake3 ec stripeSize blob.length body s)
      = (List.range ec.totalShards).map fun j =>
        if Intact ec stripeSize blob.length (bodiesOf blake3 ec stripeSize blob units) damaged j s
        then some ((units s).getD j []) else none := by
  have hlen : damaged.length = ec.totalShards := hdamage.length.trans (length_bodiesOf blake3 _ _)
  refine List.ext_getElem (by simp [hlen]) fun j hj _ => ?_
  rw [List.length_map] at hj
  rw [List.getElem_map, List.getElem_map, List.getElem_range,
    ← unitAt_damaged blake3 h hdamage hs (by omega), List.getElem?_eq_getElem hj]
  rfl

/-- A stripe with `data` intact frames is restored, and the shards without one are marked. -/
lemma decodeStripe_ok (hrs : rs.Reconstructs ec.data ec.parity)
    (h : Coded rs ec stripeSize blob units)
    (hdamage : Damage blake3 ec stripeSize blob.length (bodiesOf blake3 ec stripeSize blob units)
      damaged) (hs : s < stripeCount blob.length stripeSize)
    (henough : ec.data ≤ (List.range ec.totalShards).countP fun j =>
      Intact ec stripeSize blob.length (bodiesOf blake3 ec stripeSize blob units) damaged j s)
    (bad : ℕ → Bool) :
    decodeStripe rs blake3 ec stripeSize blob.length damaged
        (blob.take (s * stripeSize), (List.range ec.totalShards).map bad) s
      = .ok (blob.take ((s + 1) * stripeSize), (List.range ec.totalShards).map fun j =>
        bad j || !decide (Intact ec stripeSize blob.length
          (bodiesOf blake3 ec stripeSize blob units) damaged j s)) := by
  have hdatalen : ((units s).take ec.data).length = ec.data := by
    rw [h.data s hs, length_dataUnits]
  obtain ⟨slots, hslots, htake⟩ := Erasure.reconstruct_ok hrs hdatalen (h.code s hs)
    (by rw [List.take_append_drop]; exact h.unit s hs) (unit_ne_zero ec hs) (even_unitSize _ _)
    (show (damaged.map fun body => unitAt blake3 ec stripeSize blob.length body s).length = _ by
      rw [map_unitAt_damaged blake3 h hdamage hs]
      simp)
    (by
      intro j d hd
      rw [map_unitAt_damaged blake3 h hdamage hs, List.getElem?_map] at hd
      obtain ⟨i, hi, hd⟩ := Option.map_eq_some_iff.mp hd
      obtain ⟨hj, rfl⟩ := List.getElem?_eq_some_iff.mp hi
      rw [List.length_range] at hj
      rw [List.getElem_range] at hd
      split_ifs at hd
      rw [List.take_append_drop, ← Option.some.inj hd, List.getD_eq_getElem _ _ (by rwa [h.total s hs]),
        List.getElem?_eq_getElem])
    (by
      rw [map_unitAt_damaged blake3 h hdamage hs, List.countP_map]
      refine henough.trans (le_of_eq (List.countP_congr fun j _ => ?_))
      by_cases hintact : Intact ec stripeSize blob.length
        (bodiesOf blake3 ec stripeSize blob units) damaged j s <;> simp [hintact])
  have hstripe : ((slots.take ec.data).flatMap fun u => u.getD []).take
      (stripeLen blob.length stripeSize s) = stripeOf stripeSize blob s := by
    rw [htake, List.flatMap_map, h.data s hs, ← length_stripeOf hs]
    have hflat := take_flatten_dataUnits ec.data_pos (stripeOf stripeSize blob s)
    rwa [← List.flatMap_id'] at hflat
  unfold decodeStripe
  simp only [hslots, Except.mapError]
  show Except.ok (_ ++ List.take _ _, _) = _
  rw [hstripe]
  congr 2
  · rw [stripeOf, Nat.succ_mul, List.take_add]
  · rw [map_unitAt_damaged blake3 h hdamage hs]
    refine List.ext_getElem (by simp) fun j hj _ => ?_
    rw [List.getElem_zipWith, List.getElem_map, List.getElem_map, List.getElem_map,
      List.getElem_range]
    by_cases hintact : Intact ec stripeSize blob.length
      (bodiesOf blake3 ec stripeSize blob units) damaged j s <;> simp [hintact]

/-- A blob is restored from every damage that leaves `data` intact frames in each stripe. -/
lemma decodeBlob_ok (hrs : rs.Reconstructs ec.data ec.parity)
    (h : Coded rs ec stripeSize blob units)
    (hdamage : Damage blake3 ec stripeSize blob.length (bodiesOf blake3 ec stripeSize blob units)
      damaged)
    (henough : ∀ s < stripeCount blob.length stripeSize,
      ec.data ≤ (List.range ec.totalShards).countP fun j =>
        Intact ec stripeSize blob.length (bodiesOf blake3 ec stripeSize blob units) damaged j s) :
    decodeBlob rs blake3 ec stripeSize blob.length damaged
      = .ok ⟨blob, (List.range ec.totalShards).filter fun j =>
        DamagedBefore ec stripeSize blob.length (bodiesOf blake3 ec stripeSize blob units) damaged
          (stripeCount blob.length stripeSize) j⟩ := by
  have hlen : damaged.length = ec.totalShards := hdamage.length.trans (length_bodiesOf blake3 _ _)
  have hloop : ∀ k ≤ stripeCount blob.length stripeSize,
      (List.range k).foldlM (decodeStripe rs blake3 ec stripeSize blob.length damaged)
          ([], List.replicate ec.totalShards false)
        = .ok (blob.take (k * stripeSize), (List.range ec.totalShards).map fun j =>
          decide (DamagedBefore ec stripeSize blob.length
            (bodiesOf blake3 ec stripeSize blob units) damaged k j)) := by
    intro k
    induction k with
    | zero =>
      intro _
      have hnone : ((List.range ec.totalShards).map fun j => decide (DamagedBefore ec stripeSize
          blob.length (bodiesOf blake3 ec stripeSize blob units) damaged 0 j))
            = List.replicate ec.totalShards false := by
        rw [List.eq_replicate_iff]
        simp [DamagedBefore]
      rw [hnone, Nat.zero_mul]
      rfl
    | succ k ih =>
      intro hk
      rw [List.range_succ, List.foldlM_append, ih (by omega)]
      show (List.foldlM _ _ [k] : Except GatewayError (Bytes × List Bool)) = _
      rw [List.foldlM_cons,
        decodeStripe_ok blake3 hrs h hdamage (by omega) (henough k (by omega))]
      show Except.ok _ = _
      congr 2
      refine List.map_congr_left fun j _ => ?_
      rw [← decide_not, ← Bool.decide_or, decide_eq_decide, DamagedBefore, DamagedBefore]
      simp only [Nat.lt_succ_iff_lt_or_eq, or_and_right, exists_or, exists_eq_left]
  rw [decodeBlob, if_neg (not_not.mpr hlen)]
  by_cases hzero : blob.length = 0
  · have hstripes : stripeCount blob.length stripeSize = 0 := by
      rw [hzero]
      exact zero_ceilDiv _
    rw [if_pos hzero, hstripes, List.length_eq_zero_iff.mp hzero]
    simp [DamagedBefore]
  · rw [if_neg hzero, hloop _ le_rfl]
    have hwhole : blob.take (stripeCount blob.length stripeSize * stripeSize) = blob :=
      List.take_of_length_le (le_mul_stripeCount _ _)
    rw [hwhole]
    show (if blob.length ≠ blob.length then _ else _) = _
    rw [if_neg (not_not.mpr rfl)]
    show Except.ok _ = _
    congr 2
    refine List.filter_congr fun j hj => ?_
    rw [List.getD_eq_getElem _ _ (by simpa using hj), List.getElem_map, List.getElem_range]

end Decode

end Pipeline

/-- The round trip of a blob: whatever the code mode, the stripe size and the blob, encoding gives a
body of the physical length to each shard, and decoding gives back the blob from every damage that
leaves `data` frames of each stripe intact.  The healed shards are those with a damaged frame. -/
theorem erasure_round_trip {rs : ReedSolomon} {ec : Erasure}
    (hrs : rs.Reconstructs ec.data ec.parity) (blake3 : Bytes → Vector UInt8 32) (stripeSize : ℕ+)
    (blob : Bytes) :
    shardPhysicalBlobLen blob.length stripeSize ec.data
        = (stripeFrameLens blob.length stripeSize ec.data).sum
      ∧ ∃ bodies, encodeBlob rs blake3 ec stripeSize blob = .ok bodies
        ∧ bodies.length = ec.totalShards
        ∧ (∀ body ∈ bodies, body.length = shardPhysicalBlobLen blob.length stripeSize ec.data)
        ∧ ∀ damaged, Damage blake3 ec stripeSize blob.length bodies damaged →
          (∀ s < stripeCount blob.length stripeSize,
            ec.data ≤ (List.range ec.totalShards).countP fun j =>
              Intact ec stripeSize blob.length bodies damaged j s) →
          decodeBlob rs blake3 ec stripeSize blob.length damaged
            = .ok ⟨blob, (List.range ec.totalShards).filter fun j =>
              DamagedBefore ec stripeSize blob.length bodies damaged
                (stripeCount blob.length stripeSize) j⟩ := by
  obtain ⟨units, h⟩ := exists_coded hrs stripeSize blob
  refine ⟨shardPhysicalBlobLen_eq_sum _ _ _, bodiesOf blake3 ec stripeSize blob units,
    encodeBlob_ok blake3 hrs h, length_bodiesOf blake3 _ _, ?_, ?_⟩
  · intro body hbody
    obtain ⟨j, hj, rfl⟩ := List.mem_map.mp hbody
    exact length_bodyOf blake3 h (List.mem_range.mp hj)
  · exact fun damaged hdamage henough => decodeBlob_ok blake3 hrs h hdamage henough

/-- The code of one data unit: every recovery unit is a copy. -/
def replicas : ReedSolomon where
  encode _ parity units := .ok (List.replicate parity (units.headD []))
  decode _ _ originals recoveries :=
    .ok (if originals = [] then (recoveries.take 1).map fun e => (0, e.2) else [])

lemma replicas_reconstructs (parity : ℕ) : replicas.Reconstructs 1 parity where
  encode_ok := by
    intro units len hunits hlen _ _
    obtain ⟨u, rfl⟩ := List.length_eq_one_iff.mp hunits
    refine ⟨_, rfl, List.length_replicate, fun v hv => ?_⟩
    rw [List.eq_of_mem_replicate hv]
    exact hlen u List.mem_cons_self
  decode_ok := by
    intro units recovery originals recoveries hunits hcode _ _ hright hright' henough
    obtain ⟨u, rfl⟩ := List.length_eq_one_iff.mp hunits
    obtain rfl : List.replicate parity u = recovery := Except.ok.inj hcode
    refine ⟨_, rfl, ?_⟩
    by_cases hnone : originals = []
    · rw [if_pos hnone]
      rw [hnone, List.length_nil, Nat.zero_add] at henough
      obtain ⟨e, rest, rfl⟩ := List.exists_cons_of_length_pos henough
      have he := List.mem_of_getElem? (hright' e List.mem_cons_self)
      have hcopy : e.2 = u := List.eq_of_mem_replicate he
      refine ⟨by simp [hcopy], fun i hi => Or.inr ?_⟩
      simp [Nat.lt_one_iff.mp hi]
    · rw [if_neg hnone]
      obtain ⟨e, rest, rfl⟩ := List.exists_cons_of_ne_nil hnone
      obtain ⟨hlt, -⟩ := List.getElem?_eq_some_iff.mp (hright e List.mem_cons_self)
      refine ⟨by simp, fun i hi => Or.inl ?_⟩
      rw [List.length_singleton, Nat.lt_one_iff] at hlt
      simp [Nat.lt_one_iff.mp hi, hlt]

/-- Three copies of a blob of two stripes; the first is lost and the second is cut after its first
frame. -/
theorem erasure_round_trip_demo :
    ∃ bodies, encodeBlob replicas (fun _ => .replicate 32 0) ⟨1, 2, by decide, by decide, by decide,
        by decide⟩ 2 [1, 2, 3] = .ok bodies
      ∧ decodeBlob replicas (fun _ => .replicate 32 0) ⟨1, 2, by decide, by decide, by decide,
        by decide⟩ 2 3 [none, bodies[1]?.map (·.take 96), bodies[2]?] = .ok ⟨[1, 2, 3], [0, 1]⟩ := by
  obtain ⟨-, bodies, hencode, -, -, hdecode⟩ := @erasure_round_trip replicas
    ⟨1, 2, by decide, by decide, by decide, by decide⟩ (replicas_reconstructs 2)
    (fun _ => .replicate 32 0) 2 [1, 2, 3]
  have hbodies : bodies = List.replicate 3 (List.replicate 32 0 ++ [1, 2] ++ List.replicate 94 0
      ++ [3] ++ List.replicate 63 0) := by
    refine Except.ok.inj (hencode.symm.trans ?_)
    decide +kernel
  subst hbodies
  refine ⟨_, hencode, (hdecode _ ⟨rfl, ?_⟩ ?_).trans ?_⟩
  · decide +kernel
  · decide +kernel
  · decide +kernel

end Epoch.Gateway
