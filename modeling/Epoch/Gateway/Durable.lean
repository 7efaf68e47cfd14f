import Epoch.Gateway.Object

/-!
# Acknowledged objects stay readable

Under a blob id only the bodies of one blob are ever written (`Only`), so whichever write of an index
commits first, at whichever attempt, the node holds the body of that index.  A PUT counts a shard when
its write was answered Ok, once for each index; the count is a lower bound of the shards that hold
their body (`joinLoop_count`), and nothing that is held goes away (`Extends`).

`acknowledged_put_durable`: the blobs of a layout are held by a write quorum of the recorded chunk, and
the object is read back from every later state in which at most `writeQuorum - data` of these shards
were lost or damaged.
-/

namespace Epoch.Gateway

open Ec

/-! ## What is held under a blob id -/

/-- Under the blob id only these bodies are held or on their way, each at its index. -/
def Only (w : World) (blob : BlobId) (bodies : List Bytes) : Prop :=
  (∀ slot body, slot.blob = blob → w.held slot = some body →
      bodies[slot.index.toNat]? = some body)
    ∧ ∀ e ∈ w.started, e.1.blob = blob → bodies[e.1.index.toNat]? = some e.2

/-- Nothing is held or on its way under a fresh id. -/
lemma Only.of_fresh {w : World} {blob : BlobId} (h : Only w blob []) (bodies : List Bytes) :
    Only w blob bodies :=
  ⟨fun slot body hslot hheld => absurd (h.1 slot body hslot hheld) (by simp),
    fun e he hblob => absurd (h.2 e he hblob) (by simp)⟩

/-- What a step of a write of `blob` keeps. -/
structure Extends (blob : BlobId) (bodies : List Bytes) (w w' : World) : Prop where
  held : ∀ slot body, w.held slot = some body → w'.held slot = some body
  only : ∀ b bs, (b = blob → bs = bodies) → Only w b bs → Only w' b bs

namespace Extends

variable {blob : BlobId} {bodies : List Bytes} {w w' w'' : World}

lemma refl (blob : BlobId) (bodies : List Bytes) (w : World) : Extends blob bodies w w :=
  ⟨fun _ _ h => h, fun _ _ _ h => h⟩

lemma trans (h : Extends blob bodies w w') (h' : Extends blob bodies w' w'') :
    Extends blob bodies w w'' :=
  ⟨fun slot body hheld => h'.held slot body (h.held slot body hheld),
    fun b bs hb honly => h'.only b bs hb (h.only b bs hb honly)⟩

end Extends

section Commit

variable {w : World}

lemma held_commit (w : World) (slot slot' : Slot) (body : Bytes) :
    (w.commit slot body).held slot'
      = if slot' = slot ∧ w.held slot = none then some body else w.held slot' := by
  unfold World.commit
  cases hslot : w.held slot with
  | some b => simp
  | none =>
    rw [if_neg (by simp)]
    by_cases heq : slot' = slot
    · simp [heq]
    · simp [heq]

lemma started_commit (w : World) (slot : Slot) (body : Bytes) :
    (w.commit slot body).started = w.started := by
  unfold World.commit
  split_ifs <;> rfl

/-- A started write that commits adds nothing new under a blob id. -/
lemma extends_commit {e : Slot × Bytes} (he : e ∈ w.started) (blob : BlobId)
    (bodies : List Bytes) : Extends blob bodies w (w.commit e.1 e.2) := by
  refine ⟨fun slot body hheld => ?_, fun b bs _ honly => ⟨fun slot body hslot hheld => ?_, ?_⟩⟩
  · rw [held_commit, if_neg]
    · exact hheld
    · rintro ⟨rfl, hnone⟩
      rw [hnone] at hheld
      exact absurd hheld (by simp)
  · rw [held_commit] at hheld
    split_ifs at hheld with hcase
    · obtain ⟨rfl, -⟩ := hcase
      rw [← Option.some.inj hheld]
      exact honly.2 e he hslot
    · exact honly.1 slot body hslot hheld
  · rw [started_commit]
    exact honly.2

lemma extends_late (w : World) (k : ℕ) (blob : BlobId) (bodies : List Bytes) :
    Extends blob bodies w (w.late k) := by
  unfold World.late
  cases hk : w.started[k]? with
  | none => exact .refl blob bodies w
  | some e => exact extends_commit (List.mem_of_getElem? hk) blob bodies

lemma started_late (w : World) (k : ℕ) : (w.late k).started = w.started := by
  unfold World.late
  cases w.started[k]? with
  | none => rfl
  | some e => exact started_commit _ _ _

/-- Late commits keep everything. -/
lemma extends_lates (w : World) (ks : List ℕ) (blob : BlobId) (bodies : List Bytes) :
    Extends blob bodies w (ks.foldl World.late w) := by
  induction ks generalizing w with
  | nil => exact .refl blob bodies w
  | cons k ks ih => exact (extends_late w k blob bodies).trans (ih _)

/-- Starting the writes of a blob. -/
lemma extends_start {blob : BlobId} {bodies : List Bytes} {writes : List (Slot × Bytes)}
    (hwrites : ∀ e ∈ writes, e.1.blob = blob ∧ bodies[e.1.index.toNat]? = some e.2) :
    Extends blob bodies w { w with started := w.started ++ writes } := by
  refine ⟨fun _ _ h => h, fun b bs hb honly => ⟨honly.1, fun e he hblob => ?_⟩⟩
  rcases List.mem_append.mp he with he | he
  · exact honly.2 e he hblob
  · obtain ⟨hblob', hbody⟩ := hwrites e he
    rw [hb (hblob.symm.trans hblob')]
    exact hbody

end Commit

/-! ## One attempt -/

section Attempt

variable {quorum : ℕ} {writes : List (Slot × Bytes)} {blob : BlobId} {bodies : List Bytes}

/-- The writes whose node holds their body. -/
def landed (w : World) (writes : List (Slot × Bytes)) : Finset ℕ :=
  (Finset.range writes.length).filter fun j => ∃ e ∈ writes[j]?, w.held e.1 = some e.2

variable {w w' : World} {waiting : List ℕ} {committed : ℕ}

lemma landed_mono (h : Extends blob bodies w w') (writes : List (Slot × Bytes)) :
    landed w writes ⊆ landed w' writes := by
  intro j hj
  obtain ⟨hlt, e, he, hheld⟩ := Finset.mem_filter.mp hj
  exact Finset.mem_filter.mpr ⟨hlt, e, he, h.held e.1 e.2 hheld⟩

/-- A committed write leaves its body at the node, also when the node had one already. -/
lemma held_commit_self {e : Slot × Bytes} (honly : Only w blob bodies) (hblob : e.1.blob = blob)
    (hbody : bodies[e.1.index.toNat]? = some e.2) :
    (w.commit e.1 e.2).held e.1 = some e.2 := by
  rw [held_commit]
  cases hheld : w.held e.1 with
  | none => simp
  | some body =>
    have hbody' := honly.1 e.1 body hblob hheld
    rw [if_neg (by simp), Option.some.inj (hbody'.symm.trans hbody)]

/-- The writes that landed and are not waited for. -/
def settled (w : World) (writes : List (Slot × Bytes)) (waiting : List ℕ) : Finset ℕ :=
  (landed w writes).filter (· ∉ waiting)

lemma settled_mono (h : Extends blob bodies w w') (writes : List (Slot × Bytes))
    {waiting' : List ℕ} (hsub : waiting' ⊆ waiting) :
    settled w writes waiting ⊆ settled w' writes waiting' := by
  intro j hj
  obtain ⟨hlanded, hnot⟩ := Finset.mem_filter.mp hj
  exact Finset.mem_filter.mpr ⟨landed_mono h writes hlanded, fun hmem => hnot (hsub hmem)⟩

/-- A joined task is counted only when its write has landed. -/
lemma joined_spec (hwrites : ∀ e ∈ writes, e.1.blob = blob ∧ bodies[e.1.index.toNat]? = some e.2)
    (hnodup : waiting.Nodup) {j : ℕ} (hj : j ∈ waiting) (reply : Reply) (errors : List EpochError)
    (hstarted : ∀ e ∈ writes, e ∈ w.started) (honly : Only w blob bodies)
    (hcount : committed ≤ (settled w writes waiting).card) :
    Extends blob bodies w (joined writes j reply committed errors w).2
      ∧ (joined writes j reply committed errors w).2.started = w.started
      ∧ (joined writes j reply committed errors w).1.1
        ≤ (settled (joined writes j reply committed errors w).2 writes (waiting.erase j)).card := by
  have hkeep : committed ≤ (settled w writes (waiting.erase j)).card :=
    hcount.trans (Finset.card_le_card
      (settled_mono (.refl blob bodies w) writes List.erase_subset))
  cases reply with
  | failed err => exact ⟨.refl _ _ _, rfl, hkeep⟩
  | timedOut => exact ⟨.refl _ _ _, rfl, hkeep⟩
  | panicked => exact ⟨.refl _ _ _, rfl, hkeep⟩
  | committed =>
    unfold joined
    cases hget : writes[j]? with
    | none => exact ⟨.refl _ _ _, rfl, hkeep⟩
    | some e =>
      have hmem := List.mem_of_getElem? hget
      obtain ⟨hblob, hbody⟩ := hwrites e hmem
      have hext := extends_commit (hstarted e hmem) blob bodies
      refine ⟨hext, started_commit _ _ _, (Nat.add_le_add_right hcount 1).trans ?_⟩
      -- the write was waited for, so it was not counted before
      have hnew : j ∉ settled w writes waiting := fun h => (Finset.mem_filter.mp h).2 hj
      rw [← Finset.card_insert_of_notMem hnew]
      refine Finset.card_le_card (Finset.insert_subset ?_
        (settled_mono hext writes List.erase_subset))
      refine Finset.mem_filter.mpr ⟨Finset.mem_filter.mpr ⟨?_, e, hget, ?_⟩, ?_⟩
      · exact Finset.mem_range.mpr (List.getElem?_eq_some_iff.mp hget).1
      · exact held_commit_self honly hblob hbody
      · exact hnodup.not_mem_erase

/-- The number that is counted as committed is at most the number of writes that landed. -/
lemma joinLoop_spec
    (hwrites : ∀ e ∈ writes, e.1.blob = blob ∧ bodies[e.1.index.toNat]? = some e.2)
    (events : List ShardEvent) (hnodup : waiting.Nodup) (errors : List EpochError)
    (hstarted : ∀ e ∈ writes, e ∈ w.started) (honly : Only w blob bodies)
    (hcount : committed ≤ (settled w writes waiting).card) :
    Extends blob bodies w (joinLoop quorum writes events waiting committed errors w).2
      ∧ (joinLoop quorum writes events waiting committed errors w).1.1
        ≤ (landed (joinLoop quorum writes events waiting committed errors w).2 writes).card := by
  have hle : ∀ (w : World) (waiting : List ℕ),
      (settled w writes waiting).card ≤ (landed w writes).card :=
    fun w waiting => Finset.card_le_card (Finset.filter_subset _ _)
  induction events generalizing waiting committed errors w with
  | nil => exact ⟨.refl _ _ _, hcount.trans (hle w waiting)⟩
  | cons event events ih =>
    by_cases hnil : waiting = []
    · rw [joinLoop.eq_def]
      simp only [if_pos hnil]
      exact ⟨.refl _ _ _, hcount.trans (hle w waiting)⟩
    cases event with
    | late k =>
      rw [joinLoop, if_neg hnil]
      have hext := extends_late w k blob bodies
      obtain ⟨hext', hlanded⟩ := ih hnodup errors
        (fun e he => by rw [started_late]; exact hstarted e he)
        (hext.only blob bodies (fun _ => rfl) honly)
        (hcount.trans (Finset.card_le_card (settled_mono hext writes (List.Subset.refl _))))
      exact ⟨hext.trans hext', hlanded⟩
    | answer j reply =>
      rw [joinLoop, if_neg hnil]
      dsimp only
      by_cases hj : j ∈ waiting
      · rw [if_pos hj]
        obtain ⟨hext, hstarted', hcount'⟩ :=
          joined_spec hwrites hnodup hj reply errors hstarted honly hcount
        by_cases hquorum : (joined writes j reply committed errors w).1.1 ≥ quorum
        · rw [if_pos hquorum]
          exact ⟨hext, hcount'.trans (hle _ _)⟩
        · rw [if_neg hquorum]
          obtain ⟨hext', hlanded⟩ := ih (hnodup.erase j) _
            (fun e he => by rw [hstarted']; exact hstarted e he)
            (hext.only blob bodies (fun _ => rfl) honly) hcount'
          exact ⟨hext.trans hext', hlanded⟩
      · rw [if_neg hj]
        exact ih hnodup errors hstarted honly hcount

end Attempt

/-! ## A blob -/

lemma CodeMode.erasure_eq (code : CodeMode) : code.erasure = .ok code.ec := by
  have hpos := code.ec.data_pos
  have hpos' := code.ec.parity_pos
  have hle := code.ec.data_le
  have hle' := code.ec.parity_le
  rw [CodeMode.erasure, Erasure.new, dif_neg]
  · rfl
  · unfold CodeMode.data CodeMode.parity
    omega

/-- The frames a body is sent in join to the body. -/
lemma flatten_sendFrames (lens : List ℕ) (body : Bytes) (h : lens.sum = body.length) :
    (sendFrames lens body).flatten = body := by
  induction lens generalizing body with
  | nil =>
    rw [List.sum_nil] at h
    rw [List.length_eq_zero_iff.mp h.symm]
    rfl
  | cons len lens ih =>
    rw [List.sum_cons] at h
    rw [sendFrames, List.flatten_cons, ih _ (by rw [List.length_drop]; omega),
      List.take_append_drop]

section Blob

variable (rs : ReedSolomon) (blake3 : Bytes → Vector UInt8 32)

/-- The bodies of a blob of an object. -/
def bodiesFor (code : CodeMode) (slice : Bytes) : List Bytes :=
  match encodeBlob rs blake3 code.ec code.stripeSize slice with
  | .ok bodies => bodies
  | .error _ => []

/-- The shards of the recorded chunk whose node holds the body of their index. -/
def holders (code : CodeMode) (w : World) (slice : Bytes) (blob : BlobDesc) : Finset ℕ :=
  (Finset.range code.total).filter fun j => ∃ shard ∈ blob.chunk.shards[j]?,
    ∃ body ∈ (bodiesFor rs blake3 code slice)[j]?, w.held (slotOf shard blob.blobId) = some body

/-- A placement with a shard for each index, in order. -/
structure InOrder (code : CodeMode) (chunk : ChunkPlacement) : Prop where
  total : chunk.shards.length = code.total
  indexed : ∀ (j : ℕ) (shard : Shard × NodeId), chunk.shards[j]? = some shard →
    shard.1.index.toNat = j

/-- What a PUT has done for a blob when it is acknowledged. -/
structure Durable (code : CodeMode) (w : World) (slice : Bytes) (blob : BlobDesc) : Prop where
  len : blob.len = slice.length
  placed : InOrder code blob.chunk
  only : Only w blob.blobId (bodiesFor rs blake3 code slice)
  quorum : code.writeQuorum ≤ (holders rs blake3 code w slice blob).card

variable {rs} {code : CodeMode} {slice : Bytes} {blobId : BlobId} {w w' : World}

/-- Later writes of other blobs take nothing away. -/
lemma Durable.mono {blob : BlobDesc} {other : BlobId} {bodies : List Bytes}
    (h : Durable rs blake3 code w slice blob) (hne : blob.blobId ≠ other)
    (hext : Extends other bodies w w') : Durable rs blake3 code w' slice blob where
  len := h.len
  placed := h.placed
  only := hext.only _ _ (fun heq => absurd heq hne) h.only
  quorum := by
    refine h.quorum.trans (Finset.card_le_card fun j hj => ?_)
    obtain ⟨hlt, shard, hshard, body, hbody, hheld⟩ := Finset.mem_filter.mp hj
    exact Finset.mem_filter.mpr ⟨hlt, shard, hshard, body, hbody, hext.held _ _ hheld⟩

lemma placed_placementOf {writable : WritableChunk}
    (htotal : (placementOf writable).shards.length = code.total) :
    InOrder code (placementOf writable) := by
  refine ⟨htotal, fun j shard hshard => ?_⟩
  rw [placementOf, List.getElem?_map] at hshard
  obtain ⟨slot, hslot, rfl⟩ := Option.map_eq_some_iff.mp hshard
  obtain ⟨hlt, rfl⟩ := List.getElem?_eq_some_iff.mp hslot
  exact writable.indexed j hlt

lemma bodiesFor_spec (hrs : rs.Reconstructs code.data code.parity) (slice : Bytes) :
    encodeBlob rs blake3 code.ec code.stripeSize slice = .ok (bodiesFor rs blake3 code slice)
      ∧ (bodiesFor rs blake3 code slice).length = code.total
      ∧ ∀ body ∈ bodiesFor rs blake3 code slice,
        (sendFrames (stripeFrameLens slice.length code.stripeSize code.data) body).flatten = body := by
  obtain ⟨units, h⟩ := exists_coded hrs code.stripeSize slice
  have hok := encodeBlob_ok blake3 hrs h
  have hbodies : bodiesFor rs blake3 code slice
      = bodiesOf blake3 code.ec code.stripeSize slice units := by
    rw [bodiesFor, hok]
    rfl
  rw [hbodies]
  refine ⟨hok, length_bodiesOf blake3 _ _, fun body hbody => flatten_sendFrames _ _ ?_⟩
  obtain ⟨j, hj, rfl⟩ := List.mem_map.mp hbody
  rw [length_bodyOf blake3 h (List.mem_range.mp hj)]
  exact (shardPhysicalBlobLen_eq_sum _ _ _).symm

/-- An attempt on a chunk: what is counted as committed is held by shards of the chunk. -/
lemma writeBlob_spec (hrs : rs.Reconstructs code.data code.parity) {chunk : ChunkPlacement}
    (hplaced : InOrder code chunk) (honly : Only w blobId (bodiesFor rs blake3 code slice))
    {events : List ShardEvent} {r : (ℕ × List EpochError) × World}
    (h : writeBlob rs blake3 code chunk code.ec blobId slice events w = .ok r) :
    Extends blobId (bodiesFor rs blake3 code slice) w r.2
      ∧ r.1.1 ≤ (holders rs blake3 code r.2 slice ⟨blobId, slice.length, chunk⟩).card := by
  obtain ⟨hok, hlen, hframes⟩ := bodiesFor_spec blake3 hrs slice
  obtain ⟨writes, hwrites⟩ : ∃ writes, writes = List.zipWith
      (fun shard body => (slotOf shard blobId, (sendFrames (stripeFrameLens slice.length
        code.stripeSize code.data) body).flatten)) chunk.shards (bodiesFor rs blake3 code slice) :=
    ⟨_, rfl⟩
  have hr : joinLoop code.writeQuorum writes events (List.range writes.length) 0 []
      { w with started := w.started ++ writes } = r := by
    rw [writeBlob, hok] at h
    rw [hwrites]
    exact Except.ok.inj h
  -- the write of an index carries the body of the index
  have hget : ∀ (j : ℕ) (e : Slot × Bytes), writes[j]? = some e → ∃ shard body, chunk.shards[j]? = some shard
      ∧ (bodiesFor rs blake3 code slice)[j]? = some body ∧ e = (slotOf shard blobId, body) := by
    intro j e he
    rw [hwrites, List.getElem?_zipWith_eq_some] at he
    obtain ⟨shard, body, hshard, hbody, rfl⟩ := he
    exact ⟨shard, body, hshard, hbody, by rw [hframes body (List.mem_of_getElem? hbody)]⟩
  have hright : ∀ e ∈ writes,
      e.1.blob = blobId ∧ (bodiesFor rs blake3 code slice)[e.1.index.toNat]? = some e.2 := by
    intro e he
    obtain ⟨j, hj⟩ := List.mem_iff_getElem?.mp he
    obtain ⟨shard, body, hshard, hbody, rfl⟩ := hget j e hj
    refine ⟨rfl, ?_⟩
    show (bodiesFor rs blake3 code slice)[shard.1.index.toNat]? = some body
    rw [hplaced.indexed j shard hshard, hbody]
  have hstart : Extends blobId (bodiesFor rs blake3 code slice) w
      { w with started := w.started ++ writes } := extends_start hright
  obtain ⟨hext, hcount⟩ := joinLoop_spec hright events List.nodup_range []
    (fun e he => List.mem_append_right _ he) (hstart.only _ _ (fun _ => rfl) honly) (Nat.zero_le _)
  rw [hr] at hext hcount
  refine ⟨hstart.trans hext, hcount.trans (Finset.card_le_card fun j hj => ?_)⟩
  obtain ⟨-, e, he, hheld⟩ := Finset.mem_filter.mp hj
  obtain ⟨shard, body, hshard, hbody, rfl⟩ := hget j e he
  refine Finset.mem_filter.mpr ⟨Finset.mem_range.mpr ?_, shard, hshard, body, hbody, hheld⟩
  rw [← hlen]
  exact (List.getElem?_eq_some_iff.mp hbody).1

/-- A blob that is acknowledged is stored, however often it was written again. -/
lemma rewriteLoop_spec (hrs : rs.Reconstructs code.data code.parity) (n : ℕ)
    {attempts : List Attempt} {last : ℕ} {outOfSpace : Bool}
    (honly : Only w blobId (bodiesFor rs blake3 code slice)) {placement : ChunkPlacement}
    (h : rewriteLoop rs blake3 code code.ec blobId slice code.writeQuorum n attempts last outOfSpace
      w = .ok (placement, w')) :
    Extends blobId (bodiesFor rs blake3 code slice) w w'
      ∧ Durable rs blake3 code w' slice ⟨blobId, slice.length, placement⟩ := by
  induction n generalizing attempts last outOfSpace w with
  | zero =>
    rw [rewriteLoop] at h
    split_ifs at h
  | succ n ih =>
    cases attempts with
    | nil => exact absurd h (by simp [rewriteLoop])
    | cons attempt attempts =>
      rw [rewriteLoop] at h
      cases hpicked : attempt.picked with
      | none =>
        rw [hpicked] at h
        exact absurd h (by simp)
      | some writable =>
        rw [hpicked] at h
        dsimp only at h
        by_cases htotal : (placementOf writable).shards.length = code.total
        · rw [if_neg (not_not.mpr htotal)] at h
          have hplaced := placed_placementOf htotal
          cases hwrite : writeBlob rs blake3 code (placementOf writable) code.ec blobId slice
              attempt.events w with
          | error err =>
            rw [hwrite] at h
            exact absurd h (by simp [bind, Except.bind])
          | ok r =>
            obtain ⟨hext, hcount⟩ := writeBlob_spec blake3 hrs hplaced honly hwrite
            have honly' := hext.only _ _ (fun _ => rfl) honly
            rw [hwrite] at h
            by_cases hquorum : r.1.1 ≥ code.writeQuorum
            · have hr : Except.ok (placementOf writable, r.2)
                  = (.ok (placement, w') : Except GatewayError _) := by
                rw [← h]
                exact (if_pos hquorum).symm
              obtain ⟨rfl, rfl⟩ := Prod.mk.inj (Except.ok.inj hr)
              exact ⟨hext, rfl, hplaced, honly', le_trans hquorum hcount⟩
            · have hr : rewriteLoop rs blake3 code code.ec blobId slice code.writeQuorum n
                  attempts r.1.1 (r.1.2.contains .OutOfSpace) r.2 = .ok (placement, w') := by
                rw [← h]
                exact (if_neg hquorum).symm
              obtain ⟨hext', hdurable⟩ := ih honly' hr
              exact ⟨hext.trans hext', hdurable⟩
        · rw [if_pos htotal] at h
          exact ih honly h

end Blob

/-! ## The whole object -/

section Object

variable {rs : ReedSolomon} (blake3 : Bytes → Vector UInt8 32) {code : CodeMode}

/-- The ids that are minted are different, and nothing is held or on its way under them. -/
structure Minted (scripts : List BlobScript) (w : World) : Prop where
  distinct : (scripts.filterMap fun script => script.blobId.toOption).Nodup
  fresh : ∀ script ∈ scripts, ∀ id, script.blobId = .ok id → Only w id []

variable {w : World} {slices : List Bytes} {blobs : List BlobDesc} {ks : List ℕ}
  {read : Slot → Option Bytes}

lemma putLoop_spec (hrs : rs.Reconstructs code.data code.parity) {scripts : List BlobScript}
    {w' : World} (hminted : Minted scripts w)
    (h : putLoop rs blake3 code code.ec slices scripts w = .ok (blobs, w')) :
    (∀ slice (blob : BlobDesc), (∀ script ∈ scripts, script.blobId ≠ .ok blob.blobId) →
        Durable rs blake3 code w slice blob → Durable rs blake3 code w' slice blob)
      ∧ List.Forall₂ (Durable rs blake3 code w') slices blobs := by
  induction slices generalizing scripts w blobs with
  | nil =>
    rw [putLoop] at h
    obtain ⟨rfl, rfl⟩ := Prod.mk.inj (Except.ok.inj h)
    exact ⟨fun _ _ _ hdurable => hdurable, .nil⟩
  | cons slice slices ih =>
    cases scripts with
    | nil => exact absurd h (by simp [putLoop])
    | cons script scripts =>
      rw [putLoop] at h
      cases hid : script.blobId with
      | error err =>
        rw [hid] at h
        exact absurd h (by simp [Except.mapError, bind, Except.bind])
      | ok id =>
        rw [hid] at h
        cases hwrite : writeBlobWithRewrite rs blake3 code code.ec id slice code.writeQuorum
            script.attempts w with
        | error err =>
          simp only [Except.mapError] at h
          exact absurd h (by simp [bind, Except.bind, hwrite])
        | ok r =>
          obtain ⟨placement, w₁⟩ := r
          have honly := (hminted.fresh script List.mem_cons_self id hid).of_fresh
            (bodiesFor rs blake3 code slice)
          obtain ⟨hext, hdurable⟩ := rewriteLoop_spec blake3 hrs _ honly hwrite
          have hnodup := hminted.distinct
          rw [List.filterMap_cons_some (b := id) (by rw [hid]; rfl), List.nodup_cons]
            at hnodup
          have hother : ∀ script' ∈ scripts, script'.blobId ≠ .ok id := by
            intro script' hmem heq
            exact hnodup.1 (List.mem_filterMap.mpr ⟨script', hmem, by rw [heq]; rfl⟩)
          have hminted' : Minted scripts w₁ := by
            refine ⟨hnodup.2, fun script' hmem id' hid' => ?_⟩
            refine hext.only id' [] (fun heq => ?_)
              (hminted.fresh script' (List.mem_cons_of_mem _ hmem) id' hid')
            exact absurd (heq ▸ hid') (hother script' hmem)
          cases hrest : putLoop rs blake3 code code.ec slices scripts w₁ with
          | error err =>
            simp only [Except.mapError] at h
            exact absurd h (by simp [bind, Except.bind, hwrite, hrest])
          | ok r =>
            obtain ⟨rest, w₂⟩ := r
            have hr : Except.ok (⟨id, slice.length, placement⟩ :: rest, w₂)
                = (.ok (blobs, w') : Except GatewayError _) := by
              rw [← h]
              simp only [Except.mapError, bind, Except.bind, hwrite, hrest]
              rfl
            obtain ⟨rfl, rfl⟩ := Prod.mk.inj (Except.ok.inj hr)
            obtain ⟨hkeep, hall⟩ := ih hminted' hrest
            refine ⟨fun slice' blob hne hdurable' => ?_, .cons (hkeep _ _ hother hdurable) hall⟩
            refine hkeep slice' blob
              (fun script' hmem => hne script' (List.mem_cons_of_mem _ hmem))
              (hdurable'.mono blake3 (fun heq => ?_) hext)
            exact hne script List.mem_cons_self (heq ▸ hid)

/-! ## Reading it back -/

/-- What became of a body: a frame is as it was, or it is not there or fails its hash. -/
def Corrupts (blake3 : Bytes → Vector UInt8 32) (code : CodeMode) (len : ℕ)
    (held read : Option Bytes) : Prop :=
  ∀ s < stripeCount len code.stripeSize,
    frameAt code.ec code.stripeSize len read s = frameAt code.ec code.stripeSize len held s
      ∨ unitAt blake3 code.ec code.stripeSize len read s = none

instance (blake3 : Bytes → Vector UInt8 32) (code : CodeMode) (len : ℕ)
    (held read : Option Bytes) : Decidable (Corrupts blake3 code len held read) :=
  inferInstanceAs (Decidable (∀ s, s < _ → _))

/-- The shards that held a blob and do not return its body any more. -/
def lost (rs : ReedSolomon) (blake3 : Bytes → Vector UInt8 32) (code : CodeMode) (w : World)
    (read : Slot → Option Bytes) (slice : Bytes) (blob : BlobDesc) : Finset ℕ :=
  (holders rs blake3 code w slice blob).filter fun j => ∃ shard ∈ blob.chunk.shards[j]?,
    read (slotOf shard blob.blobId) ≠ w.held (slotOf shard blob.blobId)

/-- A later state of the shards of a blob: writes that were on their way may have committed, and
bodies were lost or damaged, of the shards that held the blob at most `writeQuorum - data`. -/
structure Survives (rs : ReedSolomon) (blake3 : Bytes → Vector UInt8 32) (code : CodeMode)
    (w : World) (ks : List ℕ) (read : Slot → Option Bytes) (slice : Bytes) (blob : BlobDesc) :
    Prop where
  corrupts : ∀ shard ∈ blob.chunk.shards, Corrupts blake3 code blob.len
    ((ks.foldl World.late w).held (slotOf shard blob.blobId)) (read (slotOf shard blob.blobId))
  few : (lost rs blake3 code w read slice blob).card ≤ code.writeQuorum - code.data

instance (rs : ReedSolomon) (blake3 : Bytes → Vector UInt8 32) (code : CodeMode) (w : World)
    (ks : List ℕ) (read : Slot → Option Bytes) (slice : Bytes) (blob : BlobDesc) :
    Decidable (Survives rs blake3 code w ks read slice blob) :=
  decidable_of_iff (_ ∧ _) ⟨fun h => ⟨h.1, h.2⟩, fun h => ⟨h.corrupts, h.few⟩⟩

lemma data_le_writeQuorum (code : CodeMode) : code.data ≤ code.writeQuorum := by
  have hpos := code.ec.parity_pos
  unfold CodeMode.writeQuorum CodeMode.total CodeMode.parity
  omega

/-- A stored blob is decoded. -/
lemma decodeBlob_stored (hrs : rs.Reconstructs code.data code.parity) {slice : Bytes}
    {blob : BlobDesc} (h : Durable rs blake3 code w slice blob)
    (hlater : Survives rs blake3 code w ks read slice blob) :
    ∃ healed, decodeBlob rs blake3 code.ec code.stripeSize blob.len
      (readBlobShards read blob.chunk blob.blobId) = .ok ⟨slice, healed⟩ := by
  obtain ⟨units, hcoded⟩ := exists_coded hrs code.stripeSize slice
  have hbodies : bodiesFor rs blake3 code slice
      = bodiesOf blake3 code.ec code.stripeSize slice units := by
    rw [bodiesFor, encodeBlob_ok blake3 hrs hcoded]
    rfl
  have honly := (extends_lates w ks blob.blobId (bodiesFor rs blake3 code slice)).only _ _
    (fun _ => rfl) h.only
  have hread : ∀ (j : ℕ) (shard : Shard × NodeId), blob.chunk.shards[j]? = some shard →
      (readBlobShards read blob.chunk blob.blobId)[j]?.join = read (slotOf shard blob.blobId) := by
    intro j shard hshard
    rw [readBlobShards, List.getElem?_map, hshard]
    rfl
  have hdamage : Damage blake3 code.ec code.stripeSize slice.length
      (bodiesOf blake3 code.ec code.stripeSize slice units)
      (readBlobShards read blob.chunk blob.blobId) := by
    refine ⟨?_, fun j hj s hs => ?_⟩
    · rw [readBlobShards, List.length_map, h.placed.total, length_bodiesOf]
      rfl
    · rw [length_bodiesOf] at hj
      have hj' : j < blob.chunk.shards.length := by
        rw [h.placed.total]
        exact hj
      have hshard : blob.chunk.shards[j]? = some blob.chunk.shards[j] :=
        List.getElem?_eq_getElem hj'
      have hcase := hlater.corrupts _ (List.getElem_mem hj') s (h.len.symm ▸ hs)
      rw [h.len] at hcase
      rw [Intact, hread j _ hshard, ← hbodies]
      cases hheld : (ks.foldl World.late w).held (slotOf blob.chunk.shards[j] blob.blobId) with
      | some body =>
        have hbody := honly.1 _ body rfl hheld
        rw [show (slotOf blob.chunk.shards[j] blob.blobId).index.toNat = j from
          h.placed.indexed j _ hshard] at hbody
        rw [hbody, ← hheld]
        exact hcase
      | none =>
        rw [hheld] at hcase
        refine Or.inr (hcase.elim (fun hnone => ?_) id)
        rw [unitAt, hnone]
        rfl
  rw [h.len]
  refine ⟨_, decodeBlob_ok blake3 hrs hcoded hdamage fun s hs => ?_⟩
  -- the shards that held the blob and still return its body have every frame
  have hintact : (holders rs blake3 code w slice blob \ lost rs blake3 code w read slice blob)
      ⊆ (Finset.range code.ec.totalShards).filter fun j => Intact code.ec code.stripeSize
        slice.length (bodiesOf blake3 code.ec code.stripeSize slice units)
        (readBlobShards read blob.chunk blob.blobId) j s := by
    intro j hj
    obtain ⟨hhold, hkept⟩ := Finset.mem_sdiff.mp hj
    obtain ⟨hlt, shard, hshard, body, hbody, hheld⟩ := Finset.mem_filter.mp hhold
    refine Finset.mem_filter.mpr ⟨hlt, ?_⟩
    have hsame : read (slotOf shard blob.blobId) = w.held (slotOf shard blob.blobId) := by
      by_contra hne
      exact hkept (Finset.mem_filter.mpr ⟨hhold, shard, hshard, hne⟩)
    rw [Intact, hread j shard hshard, hsame, hheld, ← hbodies, hbody]
  have hcard := Finset.card_le_card hintact
  have hle := Finset.le_card_sdiff (lost rs blake3 code w read slice blob)
    (holders rs blake3 code w slice blob)
  have hfew := hlater.few
  have hquorum := h.quorum
  have hdata := data_le_writeQuorum code
  rw [← Nat.count_eq_card_filter_range, Nat.count] at hcard
  have hcode : code.data = code.ec.data := rfl
  refine le_trans ?_ hcard
  omega

lemma getLoop_stored (hrs : rs.Reconstructs code.data code.parity)
    (h : List.Forall₂ (Durable rs blake3 code w) slices blobs)
    (hlater : List.Forall₂ (Survives rs blake3 code w ks read) slices blobs) (out : Bytes)
    (heals : OrdMap (ChunkId ×ₗ UInt8) Unit) :
    ∃ heals', getLoop rs blake3 read code code.ec blobs out heals
      = .ok (out ++ slices.flatten, heals') := by
  induction h generalizing out heals with
  | nil => exact ⟨heals, by rw [getLoop, List.flatten_nil, List.append_nil]⟩
  | cons hdurable _ ih =>
    cases hlater with
    | cons hsurvives hrest =>
      obtain ⟨healed, hdecode⟩ := decodeBlob_stored blake3 hrs hdurable hsurvives
      rw [getLoop, if_neg (not_not.mpr hdurable.placed.total), hdecode, List.flatten_cons,
        ← List.append_assoc]
      exact ih hrest _ _

end Object

/-- Every acknowledged object is durable.  Whatever the shard writes, the picked chunks and the late
commits of a PUT were, each blob of its layout is held by a write quorum of the shards of its chunk,
and as long as at most `writeQuorum - data` of these are lost or damaged, a GET returns the object. -/
theorem acknowledged_put_durable {rs : ReedSolomon} {code : CodeMode}
    (hrs : rs.Reconstructs code.data code.parity) (blake3 : Bytes → Vector UInt8 32) {data : Bytes}
    {scripts : List BlobScript} {w w' : World} {layout : ObjectLayout} (hminted : Minted scripts w)
    (hput : putObject rs blake3 code data scripts w = .ok (layout, w')) :
    code.data ≤ code.writeQuorum
      ∧ List.Forall₂ (fun slice blob => blob.len = slice.length
          ∧ blob.chunk.shards.length = code.total
          ∧ code.writeQuorum ≤ (holders rs blake3 code w' slice blob).card)
        (chunks code.blobSize data) layout.blobs
      ∧ ∀ ks read, List.Forall₂ (Survives rs blake3 code w' ks read) (chunks code.blobSize data)
          layout.blobs →
        ∃ heals, getObject rs blake3 read layout = .ok ⟨data, heals⟩ := by
  rw [putObject, code.erasure_eq] at hput
  cases hloop : putLoop rs blake3 code code.ec (chunks code.blobSize data) scripts w with
  | error err => exact absurd hput (by simp [bind, Except.bind, hloop])
  | ok r =>
    obtain ⟨blobs, w₁⟩ := r
    have hr : Except.ok (⟨data.length, code, blobs⟩, w₁)
        = (.ok (layout, w') : Except GatewayError _) := by
      rw [← hput]
      simp only [bind, Except.bind, hloop]
      rfl
    obtain ⟨rfl, rfl⟩ := Prod.mk.inj (Except.ok.inj hr)
    obtain ⟨-, hdurable⟩ := putLoop_spec blake3 hrs hminted hloop
    refine ⟨data_le_writeQuorum code, hdurable.imp fun slice blob h =>
      ⟨h.len, h.placed.total, h.quorum⟩, fun ks read hlater => ?_⟩
    obtain ⟨heals, hget⟩ := getLoop_stored blake3 hrs hdurable hlater [] OrdMap.empty
    have hsize : 0 < code.blobSize := lt_of_lt_of_le code.stripeSize.pos code.sizing
    rw [List.nil_append, flatten_chunks hsize] at hget
    refine ⟨heals.toList.map fun e => ⟨(ofLex e.1).1, (ofLex e.1).2⟩, ?_⟩
    rw [getObject, code.erasure_eq]
    simp only [bind, Except.bind, hget]
    exact if_neg (not_not.mpr rfl)

/-! A PUT of two blobs in three copies.  The first attempt of the first blob gets one Ok, and the same
chunk is picked again: its first shard has the blob already. -/

def demoChunk : WritableChunk where
  chunkId := 5
  slots := [⟨0, 1, 0⟩, ⟨1, 2, 0⟩, ⟨2, 3, 0⟩]
  indexed := by decide

def demoCode : CodeMode := ⟨⟨1, 2, by decide, by decide, by decide, by decide⟩, 2, 2, by decide⟩

def demoPut : Except GatewayError (ObjectLayout × World) :=
  putObject replicas (fun _ => .replicate 32 0) demoCode [1, 2, 3]
    [⟨.ok 7, [⟨some demoChunk, [.answer 0 .committed, .answer 1 (.failed .Sealed), .answer 2 .timedOut]⟩,
      ⟨some demoChunk, [.answer 0 .committed, .late 2, .answer 2 .committed]⟩]⟩,
      ⟨.ok 8, [⟨some demoChunk, [.answer 1 .committed, .answer 2 .committed]⟩]⟩]
    ⟨fun _ => none, []⟩

/-- The object is read back without the first node. -/
theorem acknowledged_put_demo : ∃ layout w, demoPut = .ok (layout, w)
    ∧ ∃ heals, getObject replicas (fun _ => .replicate 32 0)
      (fun slot => if slot.node = 1 then none else w.held slot) layout = .ok ⟨[1, 2, 3], heals⟩ := by
  have hminted : Minted [⟨.ok 7, [⟨some demoChunk,
      [.answer 0 .committed, .answer 1 (.failed .Sealed), .answer 2 .timedOut]⟩,
      ⟨some demoChunk, [.answer 0 .committed, .late 2, .answer 2 .committed]⟩]⟩,
      ⟨.ok 8, [⟨some demoChunk, [.answer 1 .committed, .answer 2 .committed]⟩]⟩]
      ⟨fun _ => none, []⟩ :=
    ⟨by decide, fun _ _ _ _ => ⟨by simp, by simp⟩⟩
  have hlater : (match demoPut with
      | .ok (layout, w) => decide (List.Forall₂ (Survives replicas (fun _ => .replicate 32 0)
          demoCode w [] fun slot => if slot.node = 1 then none else w.held slot)
          (chunks 2 [1, 2, 3]) layout.blobs)
      | .error _ => false) = true := by
    decide +kernel
  cases hput : demoPut with
  | error err =>
    rw [hput] at hlater
    exact absurd hlater (by simp)
  | ok r =>
    obtain ⟨layout, w⟩ := r
    rw [hput] at hlater
    obtain ⟨-, -, hget⟩ := acknowledged_put_durable (replicas_reconstructs 2) _ hminted hput
    exact ⟨layout, w, rfl, hget [] _ (of_decide_eq_true hlater)⟩

end Epoch.Gateway
