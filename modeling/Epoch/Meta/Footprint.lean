import Epoch.Meta.Flat.Batch
import Epoch.Meta.Hier.Batch

/-!
# What an op writes

The footprint of a namespace op is a set of user-data keys, and its batch only writes keys of the
footprint (`Flat.apply_writes`, `Hier.apply_writes`).

Since segments, parts and queue entries are found by un-delimited prefix walks, the footprint of an
op on a key is everything under that key: the record with all its suffixes, and every record whose
key extends it.  A hierarchical op also touches its parent's sentinel, and MkdirSentinel a key that
depends on the allocator.
-/

namespace Epoch

/-- A set of keys of the column families. -/
abbrev Footprint := MetaCf → Bytes → Prop

/-- Every op of the batch writes a key of the footprint. -/
def WritesWithin (P : Footprint) (ops : List StoreOp) : Prop :=
  ∀ c, ∀ w ∈ KvStore.on c ops, P c w.1

/-- The values a family holds. -/
def MetaCf.holds : MetaCf → MetaValue → Bool
  | .Meta, .Head _ => true
  | .Fs, .Fs _ => true
  | .MetaSeg, .Segment _ => true
  | .Upload, .Session _ => true
  | .Upload, .Part _ => true
  | .Delq, .Pending _ => true
  | _, _ => false

/-- Every op writes a key of the footprint, and every put stores a value of its family. -/
def Writes (P : Footprint) (ops : List StoreOp) : Prop :=
  ∀ c, ∀ w ∈ KvStore.on c ops, P c w.1 ∧ ∀ v ∈ w.2, c.holds v = true

/-- Everything under routing key `k` of bucket `b` in the given families. -/
def under (cfs : List MetaCf) (b : BucketId) (k : Bytes) : Footprint :=
  fun c key => c ∈ cfs ∧ flatKey c b k [] <+: key

section

variable {P Q : Footprint} {store store' : MetaStore} {ops ops' : List StoreOp} {b : BucketId}
  {k key : Bytes} {cfs : List MetaCf} {c : MetaCf} {w : Bytes × Option MetaValue}

lemma Writes.within (h : Writes P ops) : WritesWithin P ops := fun c w hw => (h c w hw).1

lemma Writes.mono (h : Writes P ops) (hPQ : ∀ c key, P c key → Q c key) : Writes Q ops :=
  fun c w hw => (h c w hw).imp_left (hPQ c w.1)

lemma writes_nil : Writes P [] := by
  intro c w hw
  simp at hw

lemma Writes.append (h : Writes P ops) (h' : Writes P ops') : Writes P (ops ++ ops') := by
  intro c w hw
  rw [KvStore.on_append] at hw
  rcases List.mem_append.mp hw with hw | hw
  · exact h c w hw
  · exact h' c w hw

lemma writes_singleton {op : StoreOp} (hkey : P op.cf op.key)
    (hvalue : ∀ v ∈ op.value, op.cf.holds v = true) : Writes P [op] := by
  intro c w hw
  simp only [KvStore.on_cons, KvStore.on_nil, List.append_nil] at hw
  split_ifs at hw with hc
  · rw [← hc, List.mem_singleton.mp hw]
    exact ⟨hkey, hvalue⟩
  · simp at hw

lemma writes_put {v : MetaValue} (hkey : P c key) (hvalue : c.holds v = true) :
    Writes P [WriteOp.put c key v] :=
  writes_singleton hkey fun _ hv => Option.some.inj hv ▸ hvalue

lemma writes_delete (hkey : P c key) : Writes P [WriteOp.delete c key] :=
  writes_singleton hkey fun _ hv => by cases hv

/-- A batch has no share in a family that its footprint misses. -/
lemma WritesWithin.on_eq_nil (h : WritesWithin P ops) (hc : ∀ key, ¬ P c key) :
    KvStore.on c ops = [] :=
  List.eq_nil_iff_forall_not_mem.mpr fun w hw => hc w.1 (h c w hw)

lemma under_flatKey (hc : c ∈ cfs) (s : Bytes) : under cfs b k c (flatKey c b k s) :=
  ⟨hc, flatKey_prefix_iff.mpr ⟨rfl, by simp⟩⟩

/-- Removals of what a prefix walk found. -/
lemma writes_of_mem_scanPrefix (hc : c ∈ cfs) (hcf : c ≠ .Applied) {s : Bytes} {limit : ℕ}
    (hl : 0 < limit)
    (hw : w ∈ (Epoch.scanPrefix store c (flatKey c b k s) limit).map fun e => (e.1, none)) :
    under cfs b k c w.1 ∧ ∀ v ∈ w.2, c.holds v = true := by
  obtain ⟨e, he, rfl⟩ := List.mem_map.mp hw
  have hinit : flatKey c b k [] <+: flatKey c b k s := flatKey_prefix_iff.mpr ⟨rfl, by simp⟩
  exact ⟨⟨hc, hinit.trans ((mem_scanPrefix hcf hl).mp he).2⟩, by simp⟩

lemma writes_of_mem_delqEntries (hc : MetaCf.Delq ∈ cfs) {seq : UInt64} {ts : Int64}
    {first : UInt32} {cs : List (List Slice)}
    (hw : w ∈ (delqEntries (delqKey b k seq) ts first cs).map fun e => (e.1, some e.2)) :
    under cfs b k .Delq w.1 ∧ ∀ v ∈ w.2, MetaCf.Delq.holds v = true := by
  obtain ⟨e, he, rfl⟩ := List.mem_map.mp hw
  obtain ⟨⟨c, i⟩, -, rfl⟩ := List.mem_map.mp he
  exact ⟨under_flatKey hc _, fun v hv => Option.some.inj hv ▸ rfl⟩

lemma writes_of_mem_segWrites (hc : MetaCf.MetaSeg ∈ cfs) {segs : List SliceSegment}
    (hw : w ∈ segWrites b k segs) :
    under cfs b k .MetaSeg w.1 ∧ ∀ v ∈ w.2, MetaCf.MetaSeg.holds v = true := by
  obtain ⟨⟨seg, i⟩, -, rfl⟩ := List.mem_map.mp hw
  exact ⟨under_flatKey hc _, fun v hv => Option.some.inj hv ▸ rfl⟩

end

/-! ## Flat ops -/

def FlatOp.bucket : FlatOp → BucketId
  | Put b .. | Delete b .. | CreateMultipart b .. | PutPart b .. | CompleteMultipart b ..
  | AbortMultipart b .. => b

def FlatOp.key : FlatOp → Bytes
  | Put _ k .. | Delete _ k .. | CreateMultipart _ k .. | PutPart _ k .. | CompleteMultipart _ k ..
  | AbortMultipart _ k .. => k

/-- The families a flat op touches. -/
def flatCfs : List MetaCf := [.Meta, .MetaSeg, .Upload, .Delq]

def FlatOp.touches (op : FlatOp) : Footprint := under flatCfs op.bucket op.key

namespace Flat

section Writes

variable {store : MetaStore} {b : BucketId} {k : Bytes} {seq : UInt64} {ts : Int64}

lemma captureOld_writes : Writes (under flatCfs b k) (captureOld store b k seq ts).ops := by
  intro c w hw
  rw [on_captureOld] at hw
  split_ifs at hw with hseg hdelq
  · subst hseg
    unfold captureSegs at hw
    cases hhead : store.get .Meta (headKey b k) with
    | none => simp [hhead] at hw
    | some v =>
      simp only [hhead] at hw
      exact writes_of_mem_scanPrefix (by decide) (by decide) (by decide) hw
  · subst hdelq
    exact writes_of_mem_delqEntries (by decide) hw
  · simp at hw

lemma packedPuts_writes (head : ObjectHead) : Writes (under flatCfs b k) (packedPuts b k head) := by
  intro c w hw
  rw [on_packedPuts] at hw
  split_ifs at hw with hmeta hseg
  · subst hmeta
    rw [List.mem_singleton.mp hw]
    exact ⟨under_flatKey (by decide) [], fun v hv => Option.some.inj hv ▸ rfl⟩
  · subst hseg
    exact writes_of_mem_segWrites (by decide) hw
  · simp at hw

lemma discardSession_writes (abandoned : UInt32 → Bool) (next : UInt32) (u : BitVec 128) :
    Writes (under flatCfs b k)
      (discardSession b k seq ts abandoned next (scanSession store b k u)).1 := by
  intro c w hw
  rw [(discardSession_spec _ _ _).2] at hw
  split_ifs at hw with hup hdelq
  · subst hup
    exact writes_of_mem_scanPrefix (by decide) (by decide) (by decide) hw
  · subst hdelq
    exact writes_of_mem_delqEntries (by decide) hw
  · simp at hw

variable {op : FlatOp} {out : ApplyOutcome}

/-- A flat op keeps to its footprint and keeps families apart. -/
lemma apply_writes_values {blake3 : Bytes → BitVec 256} (h : apply blake3 store op seq = .ok out) :
    Writes op.touches out.ops := by
  cases op with
  | Put b k head ts =>
    obtain rfl := Except.ok.inj h
    exact captureOld_writes.append (packedPuts_writes head)
  | Delete b k ts =>
    obtain rfl := Except.ok.inj h
    exact captureOld_writes.append (writes_delete (under_flatKey (c := .Meta) (by decide) []))
  | CreateMultipart b k u ts =>
    obtain rfl := Except.ok.inj h
    rcases applyCreate_cases store b k u ts with hc | ⟨-, hc⟩
    · rw [hc]
      exact writes_nil
    · rw [hc]
      exact writes_put (under_flatKey (c := .Upload) (by decide) _) rfl
  | PutPart b k u p part ts =>
    obtain rfl := Except.ok.inj h
    rcases applyPutPart_cases store b k u p part seq ts with hc | ⟨-, -, hon⟩
    · rw [hc]
      exact writes_nil
    · intro c w hw
      rw [hon] at hw
      split_ifs at hw with hup hdelq
      · subst hup
        rw [List.mem_singleton.mp hw]
        exact ⟨under_flatKey (by decide) _, fun v hv => Option.some.inj hv ▸ rfl⟩
      · subst hdelq
        exact writes_of_mem_delqEntries (by decide) hw
      · simp at hw
  | CompleteMultipart b k u parts ts =>
    rcases applyComplete_cases h with ⟨reason, rfl⟩ | ⟨found, size, -, -, -, -, hops⟩
    · exact writes_nil
    · rw [hops]
      exact (captureOld_writes.append (discardSession_writes _ _ u)).append (packedPuts_writes _)
  | AbortMultipart b k u ts =>
    obtain rfl := Except.ok.inj h
    unfold applyAbort
    cases store.get .Upload (uploadKey b k u 0) with
    | none => exact writes_nil
    | some session => exact discardSession_writes _ _ u

/-- **A flat op writes its footprint only.** -/
theorem apply_writes {blake3 : Bytes → BitVec 256} (h : apply blake3 store op seq = .ok out) :
    WritesWithin op.touches out.ops :=
  (apply_writes_values h).within

/-- A flat op writes nothing outside the flat families, so no bookkeeping records. -/
lemma on_eq_nil {blake3 : Bytes → BitVec 256} (h : apply blake3 store op seq = .ok out)
    {c : MetaCf} (hc : c ∉ flatCfs) :
    KvStore.on c out.ops = [] := (apply_writes h).on_eq_nil fun _ hu => hc hu.1

end Writes

end Flat

/-! ## Hierarchical ops -/

/-- The families a hierarchical op touches. -/
def hierCfs : List MetaCf := [.Fs, .MetaSeg, .Delq]

/-- One record of the `fs` family. -/
def atRecord (b : BucketId) (i : UInt64) (n : Bytes) : Footprint :=
  fun c key => c = .Fs ∧ key = Hier.fsKey b i n

/-- The records a hierarchical op reads and writes. -/
def HierOp.touches (op : HierOp) (ino : InoAllocator) : Footprint := fun c key =>
  match op with
  | Write b i n .. | Unlink b i n _ =>
    under hierCfs b (hierRoutingKey i n) c key ∨ atRecord b i Hier.SENTINEL_NAME c key
  | MkdirSentinel b .. =>
    ∃ child ino', ino.mint = .ok (child, ino') ∧ atRecord b child Hier.SENTINEL_NAME c key
  | MkdirLink b i n .. | RmdirUnlink b i n _ =>
    atRecord b i n c key ∨ atRecord b i Hier.SENTINEL_NAME c key
  | RmdirSentinel b i _ => under hierCfs b (be64 i) c key
  | RenameSameDir b i source target _ =>
    under hierCfs b (hierRoutingKey i source) c key
      ∨ under hierCfs b (hierRoutingKey i target) c key ∨ atRecord b i Hier.SENTINEL_NAME c key

/-- A directory's sentinel, if the engine holds one. -/
def atSentinel (store : MetaStore) (b : BucketId) (i : UInt64) : Footprint := fun c key =>
  atRecord b i Hier.SENTINEL_NAME c key ∧ store.get .Fs (Hier.fsKey b i Hier.SENTINEL_NAME) ≠ none

/-- The records it writes.  A sentinel is only bumped or removed where it is stored, and only
created where it is not. -/
def HierOp.writes (op : HierOp) (store : MetaStore) (ino : InoAllocator) : Footprint := fun c key =>
  match op with
  | Write b i n .. | Unlink b i n _ =>
    under hierCfs b (hierRoutingKey i n) c key ∨ atSentinel store b i c key
  | MkdirSentinel b .. =>
    ∃ child ino', ino.mint = .ok (child, ino')
      ∧ store.get .Fs (Hier.fsKey b child Hier.SENTINEL_NAME) = none
      ∧ atRecord b child Hier.SENTINEL_NAME c key
  | MkdirLink b i n .. | RmdirUnlink b i n _ =>
    atRecord b i n c key ∨ atSentinel store b i c key
  | RmdirSentinel b i _ => atSentinel store b i c key
  | RenameSameDir b i source target _ =>
    under hierCfs b (hierRoutingKey i source) c key
      ∨ under hierCfs b (hierRoutingKey i target) c key ∨ atSentinel store b i c key

namespace Hier

section Writes

variable {store : MetaStore} {b : BucketId} {i : UInt64} {n : Bytes} {seq : UInt64}
  {ts : Int64}

lemma atRecord_under {c : MetaCf} {key : Bytes} (h : atRecord b i n c key) :
    under hierCfs b (hierRoutingKey i n) c key := by
  obtain ⟨rfl, rfl⟩ := h
  rw [fsKey_eq]
  exact under_flatKey (by decide) []

lemma captureOldFile_writes :
    Writes (under hierCfs b (hierRoutingKey i n)) (captureOldFile store b i n seq ts).1 := by
  intro c w hw
  rw [on_captureOldFile] at hw
  split_ifs at hw with hseg hdelq
  · subst hseg
    unfold captureSegs at hw
    cases hhead : store.get .Fs (fsKey b i n) with
    | none => simp [hhead] at hw
    | some v =>
      simp only [hhead, oldSegments_eq] at hw
      exact writes_of_mem_scanPrefix (by decide) (by decide) (by decide) hw
  · subst hdelq
    exact writes_of_mem_delqEntries (by decide) hw
  · simp at hw

lemma packedPuts_writes (file : FileRecord) :
    Writes (under hierCfs b (hierRoutingKey i n)) (packedPuts b i n file) := by
  intro c w hw
  rw [on_packedPuts] at hw
  split_ifs at hw with hfs hseg
  · subst hfs
    rw [List.mem_singleton.mp hw]
    exact ⟨atRecord_under ⟨rfl, rfl⟩, fun v hv => Option.some.inj hv ▸ rfl⟩
  · subst hseg
    exact writes_of_mem_segWrites (by decide) hw
  · simp at hw

lemma deleteSegments_writes :
    Writes (under hierCfs b (hierRoutingKey i n)) (deleteSegments store b i n) := by
  intro c w hw
  rw [on_deleteSegments] at hw
  split_ifs at hw with hseg
  · subst hseg
    rw [oldSegments_eq] at hw
    exact writes_of_mem_scanPrefix (by decide) (by decide) (by decide) hw
  · simp at hw

lemma IsBump.writes {delta : Int64} {bump : List StoreOp} (hb : IsBump store b i delta ts bump) :
    Writes (atSentinel store b i) bump := by
  rcases hb.cases with rfl | ⟨d, hd, rfl⟩
  · exact writes_nil
  · exact writes_put ⟨⟨rfl, rfl⟩, by simp [hd]⟩ rfl

variable {op : HierOp} {ino ino' : InoAllocator} {out : ApplyOutcome}

/-- A hierarchical op keeps to its footprint and keeps families apart. -/
lemma apply_writes_values (h : apply store op seq ino = .ok (out, ino')) :
    Writes (op.writes store ino) out.ops := by
  cases op with
  | Write b i n size etag content http ts =>
    rcases applyWrite_cases h with ⟨reason, rfl, -⟩ | ⟨fileIno, delta, bump, -, -, hb, -, hops⟩
    · exact writes_nil
    · rw [hops]
      refine (Writes.mono ?_ fun _ _ => Or.inl).append (hb.writes.mono fun _ _ => Or.inr)
      exact captureOldFile_writes.append (packedPuts_writes _)
  | Unlink b i n ts =>
    rcases applyUnlink_cases (ok_of_map h).1 with
      ⟨reason, rfl⟩ | ⟨-, rfl⟩ | ⟨f, bump, -, hb, -, hops⟩
    · exact writes_nil
    · exact writes_nil
    · rw [hops, ← List.singleton_append, ← List.append_assoc]
      refine (Writes.mono ?_ fun _ _ => Or.inl).append (hb.writes.mono fun _ _ => Or.inr)
      exact captureOldFile_writes.append (writes_delete (atRecord_under ⟨rfl, rfl⟩))
  | MkdirSentinel b i n ts =>
    obtain ⟨child, hm, -, ⟨hops, -⟩ | ⟨hnone, hops⟩⟩ := applyMkdirSentinel_cases h
    · rw [hops]
      exact writes_nil
    · rw [hops]
      exact writes_put ⟨child, ino', hm, hnone, rfl, rfl⟩ rfl
  | MkdirLink b i n child ts =>
    rcases applyMkdirLink_cases (ok_of_map h).1 with
      ⟨reason, rfl⟩ | rfl | ⟨bump, -, -, hb, -, hops⟩
    · exact writes_nil
    · exact writes_nil
    · rw [hops, ← List.singleton_append]
      exact (writes_put (Or.inl ⟨rfl, rfl⟩) rfl).append (hb.writes.mono fun _ _ => Or.inr)
  | RmdirUnlink b i n ts =>
    rcases applyRmdirUnlink_cases (ok_of_map h).1 with
      ⟨reason, rfl⟩ | rfl | ⟨d, bump, -, hb, -, hops⟩
    · exact writes_nil
    · exact writes_nil
    · rw [hops, ← List.singleton_append]
      exact (writes_delete (Or.inl ⟨rfl, rfl⟩)).append (hb.writes.mono fun _ _ => Or.inr)
  | RmdirSentinel b i ts =>
    obtain ⟨-, ⟨reason, rfl⟩ | rfl | ⟨hsome, -, rfl⟩⟩ := applyRmdirSentinel_cases h
    · exact writes_nil
    · exact writes_nil
    · exact writes_delete ⟨⟨rfl, rfl⟩, hsome⟩
  | RenameSameDir b i source target ts =>
    rcases applyRenameSameDir_cases (ok_of_map h).1 with
      ⟨reason, rfl⟩ | ⟨-, rfl⟩ | ⟨f, delta, bump, -, -, -, -, hb, -, hops⟩
    · exact writes_nil
    · exact writes_nil
    · rw [hops, ← List.singleton_append (x := WriteOp.delete MetaCf.Fs (fsKey b i source))]
      refine ((Writes.mono ?_ fun _ _ hu => Or.inr (Or.inl hu)).append
        (Writes.mono ?_ fun _ _ => Or.inl)).append (hb.writes.mono fun _ _ hu => Or.inr (Or.inr hu))
      · exact captureOldFile_writes.append (packedPuts_writes _)
      · exact (writes_delete (atRecord_under ⟨rfl, rfl⟩)).append deleteSegments_writes

/-- **A hierarchical op writes its footprint only.** -/
theorem apply_writes (h : apply store op seq ino = .ok (out, ino')) :
    WritesWithin (op.writes store ino) out.ops :=
  (apply_writes_values h).within

/-- A hierarchical op writes no bookkeeping records. -/
lemma on_applied_eq_nil (h : apply store op seq ino = .ok (out, ino')) :
    KvStore.on .Applied out.ops = [] := by
  refine (apply_writes h).on_eq_nil fun key hw => ?_
  have hunder : ∀ {b k}, ¬ under hierCfs b k .Applied key := fun hu => by
    simpa [hierCfs] using hu.1
  have hrecord : ∀ {b i n}, ¬ atRecord b i n .Applied key := fun hr => by cases hr.1
  cases op with
  | Write b i n size etag content http ts => exact hw.elim hunder fun hs => hrecord hs.1
  | Unlink b i n ts => exact hw.elim hunder fun hs => hrecord hs.1
  | MkdirSentinel b i n ts =>
    obtain ⟨child, ino'', -, -, hr⟩ := hw
    exact hrecord hr
  | MkdirLink b i n child ts => exact hw.elim hrecord fun hs => hrecord hs.1
  | RmdirUnlink b i n ts => exact hw.elim hrecord fun hs => hrecord hs.1
  | RmdirSentinel b i ts => exact hrecord hw.1
  | RenameSameDir b i source target ts =>
    exact hw.elim hunder fun hw => hw.elim hunder fun hs => hrecord hs.1

end Writes

end Hier

end Epoch
