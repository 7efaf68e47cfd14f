import Epoch.Lib.Bytes

/-!
# Erasure coding (`erasure.rs`)

An `Erasure` codes `data` units of one length into `parity` recovery units and restores missing data
units.  The coding itself is a library, which is a parameter: `ReedSolomon.Reconstructs` is what its
documentation says, that any `data` correct units give back the missing ones.

`reconstruct_ok`: slots that hold units of one stripe, at least `data` of them, are completed to the
data units of the stripe.
-/

namespace Epoch.Ec

inductive EcError
  | InvalidCodeMode (data parity : ℕ)
  | ShardCount (expected got : ℕ)
  | ShardLen (len : ℕ)
  | InconsistentShardLen
  | TooFewShards (have_ need : ℕ)
  | Backend (message : String)
deriving DecidableEq

/-- The functions of the coding library: recovery units of data units, and the missing data units
of some data and recovery units with their indices. -/
structure ReedSolomon where
  encode : ℕ → ℕ → List Bytes → Except String (List Bytes)
  decode : ℕ → ℕ → List (ℕ × Bytes) → List (ℕ × Bytes) → Except String (List (ℕ × Bytes))

/-- The library codes data units of one even nonzero length, and any `data` correct units of the
code give back the data units that are missing. -/
structure ReedSolomon.Reconstructs (rs : ReedSolomon) (data parity : ℕ) : Prop where
  encode_ok : ∀ (units : List Bytes) (len : ℕ), units.length = data →
    (∀ u ∈ units, u.length = len) → len ≠ 0 → len % 2 = 0 →
    ∃ recovery, rs.encode data parity units = .ok recovery ∧ recovery.length = parity
      ∧ ∀ u ∈ recovery, u.length = len
  decode_ok : ∀ (units recovery : List Bytes) (originals recoveries : List (ℕ × Bytes)),
    units.length = data → rs.encode data parity units = .ok recovery →
    (originals.map Prod.fst).Nodup → (recoveries.map Prod.fst).Nodup →
    (∀ e ∈ originals, units[e.1]? = some e.2) → (∀ e ∈ recoveries, recovery[e.1]? = some e.2) →
    data ≤ originals.length + recoveries.length →
    ∃ restored, rs.decode data parity originals recoveries = .ok restored
      ∧ (∀ e ∈ restored, units[e.1]? = some e.2)
      ∧ ∀ i < data, i ∈ originals.map Prod.fst ∨ i ∈ restored.map Prod.fst

def MAX_SHARDS : ℕ := 32768

/-- A coder for a code mode that `Erasure::new` accepts. -/
structure Erasure where
  data : ℕ
  parity : ℕ
  data_pos : 0 < data
  parity_pos : 0 < parity
  data_le : data ≤ MAX_SHARDS
  parity_le : parity ≤ MAX_SHARDS

def Erasure.new (data parity : ℕ) : Except EcError Erasure :=
  if h : data = 0 ∨ parity = 0 ∨ data > MAX_SHARDS ∨ parity > MAX_SHARDS then
    .error (.InvalidCodeMode data parity)
  else
    .ok ⟨data, parity, by omega, by omega, by omega, by omega⟩

namespace Erasure

def totalShards (ec : Erasure) : ℕ := ec.data + ec.parity

def checkUniformLen (ec : Erasure) : List Bytes → Except EcError ℕ
  | [] => .error (.TooFewShards 0 ec.data)
  | first :: rest =>
    if first.length = 0 ∨ first.length % 2 ≠ 0 then .error (.ShardLen first.length)
    else if ∃ shard ∈ rest, shard.length ≠ first.length then .error .InconsistentShardLen
    else .ok first.length

def encode (rs : ReedSolomon) (ec : Erasure) (data : List Bytes) : Except EcError (List Bytes) :=
  if data.length ≠ ec.data then .error (.ShardCount ec.data data.length)
  else do
    let _ ← ec.checkUniformLen data
    (rs.encode ec.data ec.parity data).mapError .Backend

/-- The slots that hold a unit, with their indices. -/
def present (slots : List (Option Bytes)) : List (ℕ × Bytes) :=
  slots.zipIdx.filterMap fun e => e.1.map (e.2, ·)

def reconstruct (rs : ReedSolomon) (ec : Erasure) (shards : List (Option Bytes)) :
    Except EcError (List (Option Bytes)) :=
  if shards.length ≠ ec.totalShards then .error (.ShardCount ec.totalShards shards.length)
  else if shards.countP Option.isSome < ec.data then
    .error (.TooFewShards (shards.countP Option.isSome) ec.data)
  else if (shards.take ec.data).all Option.isSome then .ok shards
  else do
    let _ ← ec.checkUniformLen (shards.filterMap id)
    let restored ← (rs.decode ec.data ec.parity (present (shards.take ec.data))
      (present (shards.drop ec.data))).mapError .Backend
    return restored.foldl (fun shards e => shards.set e.1 (some e.2)) shards

/-! ## What the coder does -/

lemma checkUniformLen_ok (ec : Erasure) {shards : List Bytes} {len : ℕ} (hne : shards ≠ [])
    (hlen : ∀ u ∈ shards, u.length = len) (hpos : len ≠ 0) (heven : len % 2 = 0) :
    ec.checkUniformLen shards = .ok len := by
  obtain ⟨first, rest, rfl⟩ := List.exists_cons_of_ne_nil hne
  have hfirst := hlen first List.mem_cons_self
  rw [checkUniformLen, hfirst, if_neg (by omega), if_neg]
  rintro ⟨shard, hmem, hshard⟩
  exact hshard (hlen shard (List.mem_cons_of_mem _ hmem))

lemma encode_ok {rs : ReedSolomon} {ec : Erasure} (hrs : rs.Reconstructs ec.data ec.parity)
    {units : List Bytes} {len : ℕ} (hunits : units.length = ec.data)
    (hlen : ∀ u ∈ units, u.length = len) (hpos : len ≠ 0) (heven : len % 2 = 0) :
    ∃ recovery, ec.encode rs units = .ok recovery
      ∧ rs.encode ec.data ec.parity units = .ok recovery ∧ recovery.length = ec.parity
      ∧ ∀ u ∈ recovery, u.length = len := by
  obtain ⟨recovery, hcode, hcount, hlen'⟩ := hrs.encode_ok units len hunits hlen hpos heven
  have hne : units ≠ [] := by
    rintro rfl
    exact absurd hunits ec.data_pos.ne
  refine ⟨recovery, ?_, hcode, hcount, hlen'⟩
  rw [encode, if_neg (not_not.mpr hunits), ec.checkUniformLen_ok hne hlen hpos heven, hcode]
  rfl

section Present

variable {slots : List (Option Bytes)}

lemma mem_present {e : ℕ × Bytes} : e ∈ present slots ↔ slots[e.1]? = some (some e.2) := by
  rw [present, List.mem_filterMap]
  constructor
  · rintro ⟨x, hx, hmap⟩
    obtain ⟨d, hd, rfl⟩ := Option.map_eq_some_iff.mp hmap
    rw [← hd]
    exact List.mem_zipIdx_iff_getElem?.mp hx
  · intro h
    exact ⟨(some e.2, e.1), List.mem_zipIdx_iff_getElem?.mpr h, rfl⟩

lemma nodup_present (slots : List (Option Bytes)) : ((present slots).map Prod.fst).Nodup := by
  rw [present, List.Nodup, List.pairwise_map, List.pairwise_filterMap]
  have hsnd : (slots.zipIdx.map Prod.snd).Nodup := by
    rw [List.zipIdx_map_snd]
    exact List.nodup_range'
  refine (List.pairwise_map.mp hsnd).imp ?_
  intro x y hne a ha b hb
  obtain ⟨d, -, rfl⟩ := Option.map_eq_some_iff.mp ha
  obtain ⟨d', -, rfl⟩ := Option.map_eq_some_iff.mp hb
  exact hne

lemma length_present (slots : List (Option Bytes)) :
    (present slots).length = slots.countP Option.isSome := by
  have hfst : slots.countP Option.isSome = (slots.zipIdx.map Prod.fst).countP Option.isSome := by
    rw [List.zipIdx_map_fst]
  rw [present, List.length_filterMap_eq_countP, hfst, List.countP_map]
  congr 1
  funext e
  simp

/-- Restoring units completes the slots that held a right unit or none. -/
lemma getElem?_restore {units : List Bytes} {restored : List (ℕ × Bytes)}
    (hright : ∀ e ∈ restored, units[e.1]? = some e.2) {i : ℕ} (hi : i < slots.length)
    (hcase : slots[i]? = some units[i]? ∨ i ∈ restored.map Prod.fst) :
    (restored.foldl (fun slots e => slots.set e.1 (some e.2)) slots)[i]? = some units[i]? := by
  induction restored generalizing slots with
  | nil => simpa using hcase
  | cons e restored ih =>
    refine ih (fun e' he' => hright e' (List.mem_cons_of_mem _ he')) (by simpa using hi) ?_
    by_cases heq : e.1 = i
    · left
      rw [← heq, hright e List.mem_cons_self, List.getElem?_set_self (heq ▸ hi)]
    · rw [List.getElem?_set_ne heq]
      refine hcase.imp_right fun hmem => ?_
      rw [List.map_cons, List.mem_cons] at hmem
      exact hmem.resolve_left (Ne.symm heq)

end Present

/-- Slots with at least `data` units of a stripe are completed to its data units. -/
theorem reconstruct_ok {rs : ReedSolomon} {ec : Erasure} (hrs : rs.Reconstructs ec.data ec.parity)
    {units recovery : List Bytes} {slots : List (Option Bytes)} {len : ℕ}
    (hunits : units.length = ec.data) (hcode : rs.encode ec.data ec.parity units = .ok recovery)
    (hlen : ∀ u ∈ units ++ recovery, u.length = len) (hpos : len ≠ 0) (heven : len % 2 = 0)
    (hslots : slots.length = ec.totalShards)
    (hright : ∀ (j : ℕ) (d : Bytes), slots[j]? = some (some d) → (units ++ recovery)[j]? = some d)
    (henough : ec.data ≤ slots.countP Option.isSome) :
    ∃ slots', ec.reconstruct rs slots = .ok slots' ∧ slots'.take ec.data = units.map some := by
  -- a slot of a data unit that holds one holds the right one
  have hdata : ∀ j < ec.data, ∀ d, slots[j]? = some (some d) → units[j]? = some d := by
    intro j hj d hd
    have hall := hright j d hd
    rwa [List.getElem?_append_left (by omega)] at hall
  have hle : ec.data ≤ slots.length := by rw [hslots, totalShards]; omega
  have htake : ∀ slots' : List (Option Bytes), (∀ i < ec.data, slots'[i]? = some units[i]?) →
      slots'.take ec.data = units.map some := by
    intro slots' h
    refine List.ext_getElem? fun i => ?_
    by_cases hi : i < ec.data
    · rw [List.getElem?_take_of_lt hi, h i hi, List.getElem?_map,
        List.getElem?_eq_getElem (by omega)]
      rfl
    · rw [List.getElem?_take_eq_none (by omega), List.getElem?_map,
        List.getElem?_eq_none (by omega)]
      rfl
  have hheld : ∀ i < ec.data, ∀ d, slots[i]? = some (some d) → slots[i]? = some units[i]? := by
    intro i hi d hd
    rw [hd, hdata i hi d hd]
  unfold reconstruct
  rw [if_neg (not_not.mpr hslots), if_neg (not_lt.mpr henough)]
  by_cases hall : (slots.take ec.data).all Option.isSome
  · refine ⟨slots, if_pos hall, htake slots fun i hi => ?_⟩
    have hmem : slots[i] ∈ slots.take ec.data :=
      List.mem_take_iff_getElem.mpr ⟨i, by omega, rfl⟩
    obtain ⟨d, hd⟩ := Option.isSome_iff_exists.mp (List.all_eq_true.mp hall _ hmem)
    exact hheld i hi d (by rw [List.getElem?_eq_getElem (by omega), hd])
  · rw [if_neg hall]
    have hsome : ∀ u ∈ slots.filterMap id, u.length = len := by
      intro u hu
      obtain ⟨x, hx, rfl⟩ := List.mem_filterMap.mp hu
      obtain ⟨j, hj⟩ := List.mem_iff_getElem?.mp hx
      exact hlen u (List.mem_of_getElem? (hright j u hj))
    have hne : slots.filterMap id ≠ [] := by
      have hpos' := lt_of_lt_of_le ec.data_pos henough
      obtain ⟨x, hx, hx'⟩ := List.countP_pos_iff.mp hpos'
      obtain ⟨d, rfl⟩ := Option.isSome_iff_exists.mp hx'
      exact List.ne_nil_of_mem (List.mem_filterMap.mpr ⟨some d, hx, rfl⟩)
    have hcount : ec.data ≤ (present (slots.take ec.data)).length
        + (present (slots.drop ec.data)).length := by
      rw [length_present, length_present, ← List.countP_append, List.take_append_drop]
      exact henough
    obtain ⟨restored, hdecode, hrestored, hcover⟩ := hrs.decode_ok units recovery
      (present (slots.take ec.data)) (present (slots.drop ec.data)) hunits hcode (nodup_present _)
      (nodup_present _)
      (fun e he => by
        have hslot := mem_present.mp he
        have hlt : e.1 < ec.data := by
          by_contra hge
          rw [List.getElem?_take_eq_none (by omega)] at hslot
          exact absurd hslot (by simp)
        rw [List.getElem?_take_of_lt hlt] at hslot
        exact hdata e.1 hlt e.2 hslot)
      (fun e he => by
        have hslot := mem_present.mp he
        rw [List.getElem?_drop] at hslot
        have hall := hright _ _ hslot
        rwa [List.getElem?_append_right (by omega), hunits, Nat.add_sub_cancel_left] at hall)
      hcount
    refine ⟨_, by rw [ec.checkUniformLen_ok hne hsome hpos heven, hdecode]; rfl, htake _ ?_⟩
    intro i hi
    refine getElem?_restore hrestored (by omega) ((hcover i hi).imp_left fun hmem => ?_)
    obtain ⟨e, he, rfl⟩ := List.mem_map.mp hmem
    have hslot := mem_present.mp he
    rw [List.getElem?_take_of_lt hi] at hslot
    exact hheld e.1 hi e.2 hslot

end Erasure

end Epoch.Ec
