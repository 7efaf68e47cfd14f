import Epoch.Lib.Run
import Epoch.Meta.Footprint

/-!
# Families hold their own values

Every family has its own key tag and its own kinds of values, and both namespaces keep to them:
what an op puts is a value of the family under a key with the family's tag (`Flat.apply_shaped`,
`Hier.apply_shaped`).  So in every store that ops reach, a segment key leads to a segment and so on
(`Shaped.run`), although the values are decoded by shape alone and some decode as others.
-/

namespace Epoch

/-- The puts of a batch go to keys with the family's tag and store the family's values. -/
def WritesShaped (ops : List StoreOp) : Prop :=
  ∀ c key v, (key, some v) ∈ KvStore.on c ops → key.head? = some c.tag ∧ c.holds v = true

/-- The entries of a store, outside the bookkeeping records, are shaped. -/
def Shaped (store : MetaStore) : Prop :=
  ∀ c key v, c ≠ .Applied → store.get c key = some v → key.head? = some c.tag ∧ c.holds v = true

lemma Shaped.empty : Shaped KvStore.empty := by
  intro c key v _ h
  cases h

variable {store : MetaStore}

lemma Shaped.applyBatch {ops : List StoreOp} (h : Shaped store) (hops : WritesShaped ops) :
    Shaped (store.applyBatch ops) := by
  intro c key v hc hget
  rcases get_applyBatch_eq_some hget with hmem | hold
  · exact hops c key v hmem
  · exact h c key v hc hold

lemma head?_of_under {cfs : List MetaCf} {b : BucketId} {k key : Bytes} {c : MetaCf}
    (h : under cfs b k c key) : key.head? = some c.tag := by
  obtain ⟨-, t, rfl⟩ := h
  rfl

namespace Flat

/-- **A flat op keeps families apart.** -/
theorem apply_shaped {blake3 : Bytes → BitVec 256} {op : FlatOp} {seq : UInt64} {out : ApplyOutcome}
    (h : apply blake3 store op seq = .ok out) : WritesShaped out.ops := by
  intro c key v hm
  obtain ⟨hunder, hvalue⟩ := apply_writes_values h c _ hm
  exact ⟨head?_of_under hunder, hvalue v rfl⟩

end Flat

namespace Hier

lemma head?_of_writes {op : HierOp} {ino : InoAllocator} {c : MetaCf} {key : Bytes}
    (h : op.writes store ino c key) : key.head? = some c.tag := by
  have hrecord : ∀ {b i n}, atRecord b i n c key → key.head? = some c.tag := by
    rintro b i n ⟨rfl, rfl⟩
    rfl
  cases op with
  | Write b i n size etag content http ts => exact h.elim head?_of_under fun hs => hrecord hs.1
  | Unlink b i n ts => exact h.elim head?_of_under fun hs => hrecord hs.1
  | MkdirSentinel b i n ts =>
    obtain ⟨child, ino'', -, -, hr⟩ := h
    exact hrecord hr
  | MkdirLink b i n child ts => exact h.elim hrecord fun hs => hrecord hs.1
  | RmdirUnlink b i n ts => exact h.elim hrecord fun hs => hrecord hs.1
  | RmdirSentinel b i ts => exact hrecord h.1
  | RenameSameDir b i source target ts =>
    exact h.elim head?_of_under fun h => h.elim head?_of_under fun hs => hrecord hs.1

/-- **A hierarchical op keeps families apart.** -/
theorem apply_shaped {op : HierOp} {seq : UInt64} {ino ino' : InoAllocator} {out : ApplyOutcome}
    (h : apply store op seq ino = .ok (out, ino')) : WritesShaped out.ops := by
  intro c key v hm
  obtain ⟨hwrites, hvalue⟩ := apply_writes_values h c _ hm
  exact ⟨head?_of_writes hwrites, hvalue v rfl⟩

end Hier

/-! ## Runs of both namespaces -/

/-- An op of either namespace, with the sequence number and the allocator it is applied under. -/
inductive NamespaceOp
  | Flat (op : FlatOp) (seq : UInt64)
  | Hier (op : HierOp) (seq : UInt64) (ino : InoAllocator)

/-- Apply one op and commit its batch; an op that errs commits nothing. -/
def MetaStore.perform (blake3 : Bytes → BitVec 256) (store : MetaStore) : NamespaceOp → MetaStore
  | .Flat op seq =>
    match Epoch.Flat.apply blake3 store op seq with
    | .error _ => store
    | .ok out => store.applyBatch out.ops
  | .Hier op seq ino =>
    match Epoch.Hier.apply store op seq ino with
    | .error _ => store
    | .ok (out, _) => store.applyBatch out.ops

lemma Shaped.perform (blake3 : Bytes → BitVec 256) (h : Shaped store) (op : NamespaceOp) :
    Shaped (store.perform blake3 op) := by
  cases op with
  | Flat op seq =>
    unfold MetaStore.perform
    cases ha : Flat.apply blake3 store op seq with
    | error e => simpa [ha] using h
    | ok out => simpa [ha] using h.applyBatch (Flat.apply_shaped ha)
  | Hier op seq ino =>
    unfold MetaStore.perform
    cases ha : Hier.apply store op seq ino with
    | error e => simpa [ha] using h
    | ok r => simpa [ha] using h.applyBatch (Hier.apply_shaped ha)

theorem Shaped.run (blake3 : Bytes → BitVec 256) (h : Shaped store) (ops : List NamespaceOp) :
    Shaped (Epoch.run (MetaStore.perform blake3) store ops) := by
  induction ops generalizing store with
  | nil => exact h
  | cons op ops ih => exact ih (h.perform blake3 op)

end Epoch
