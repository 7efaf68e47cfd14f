import Epoch.Lib.Chunks
import Epoch.Lib.Saturating
import Epoch.Store.ExtentMeta

/-!
# Merge operands of extent metadata (`meta_merge.rs`)

The writer, the delete path and seal or compaction each own one field of an extent's metadata and
change it by a merge operand.  `merge_meta` is installed as the full merge and as the partial merge.
As a partial merge it joins the operands' bytes, and as a full merge it skips every operand that is
not exactly nine bytes long: operands that were joined are lost (`merge_meta_loses_operands`).  A
joined stack of four or more operands is also long enough to pass for an encoded metadata value.

`merge_meta_lawful_iff` says exactly which groupings of an operand list are harmless.
-/

namespace Epoch

/-! ## Operands -/

inductive MetaMergeOp
  | SetSize (size : UInt64)
  | AddDeletedBytes (bytes : UInt64)
  | SetStatus (status : ExtentStatus)
deriving DecidableEq

namespace MetaMergeOp

def encode : MetaMergeOp → Bytes
  | SetSize size => 1 :: le64 size
  | AddDeletedBytes bytes => 2 :: le64 bytes
  | SetStatus status => [3, status.toU8, 0, 0, 0, 0, 0, 0, 0]

def decode (buf : Bytes) : Option MetaMergeOp :=
  if buf.length ≠ 9 then none
  else
    match buf.getD 0 0 with
    | 1 => some (SetSize (UInt64.ofNat (leNat (readArray 8 buf 1))))
    | 2 => some (AddDeletedBytes (UInt64.ofNat (leNat (readArray 8 buf 1))))
    | 3 => (ExtentStatus.fromU8 (buf.getD 1 0)).map SetStatus
    | _ => none

def apply (m : ExtentMeta) : MetaMergeOp → ExtentMeta
  | SetSize size => { m with size }
  | AddDeletedBytes bytes => { m with deletedBytes := saturatingAdd m.deletedBytes bytes }
  | SetStatus status => { m with status }

@[simp] lemma status_setSize (m : ExtentMeta) (size : UInt64) :
    (apply m (SetSize size)).status = m.status := rfl

@[simp] lemma status_addDeletedBytes (m : ExtentMeta) (bytes : UInt64) :
    (apply m (AddDeletedBytes bytes)).status = m.status := rfl

@[simp] lemma length_encode (op : MetaMergeOp) : op.encode.length = 9 := by
  cases op <;> simp [encode]

lemma decode_encode (op : MetaMergeOp) : decode op.encode = some op := by
  have hfield : ∀ (tag : UInt8) (x : UInt64), readArray 8 (tag :: le64 x) 1 = le64 x := by
    intro tag x
    rw [← List.append_nil (tag :: le64 x)]
    exact readArray_field (p := [tag]) _ rfl (by simp)
  cases op with
  | SetSize size => simp [decode, encode, hfield]
  | AddDeletedBytes bytes => simp [decode, encode, hfield]
  | SetStatus status => simp [decode, encode]

lemma decode_eq_none {buf : Bytes} (h : buf.length ≠ 9) : decode buf = none := if_pos h

end MetaMergeOp

/-- `decode_operand_stack`. -/
def decodeOperandStack (buf : Bytes) : Option (List MetaMergeOp) :=
  if buf.isEmpty || buf.length % 9 ≠ 0 then none else (chunks 9 buf).mapM MetaMergeOp.decode

/-- `merge_meta`, for full and for partial merges.  The source wraps the result in `Some` on every
path. -/
def mergeMeta (existing : Option Bytes) (operands : List Bytes) : Bytes :=
  match existing with
  | none => operands.flatten
  | some base =>
    match ExtentMeta.decodeValue base with
    | some m =>
      (operands.foldl
        (fun m raw =>
          match MetaMergeOp.decode raw with
          | some op => op.apply m
          | none => m) m).encode
    | none =>
      match decodeOperandStack base with
      -- a corrupt base is preserved as it is
      | none => base
      | some _ => base ++ operands.flatten

/-! ## Groupings -/

/-- The bytes that partial merges of adjacent operands can make of a list of operands. -/
inductive Combined : List MetaMergeOp → Bytes → Prop
  | operand (op : MetaMergeOp) : Combined [op] op.encode
  | merge (parts : List (List MetaMergeOp × Bytes)) (hne : parts ≠ [])
      (h : ∀ p ∈ parts, Combined p.1 p.2) :
      Combined (parts.flatMap Prod.fst) (mergeMeta none (parts.map Prod.snd))

/-- Full merges, one after the other. -/
def fullMerges (value : Bytes) (steps : List (List Bytes)) : Bytes :=
  steps.foldl (fun v operands => mergeMeta (some v) operands) value

/-- The operands of one combined operand, joined. -/
def stack (ops : List MetaMergeOp) : Bytes := ops.flatMap MetaMergeOp.encode

lemma length_stack (ops : List MetaMergeOp) : (stack ops).length = 9 * ops.length := by
  induction ops with
  | nil => rfl
  | cons op ops ih =>
    rw [stack, List.flatMap_cons, List.length_append, MetaMergeOp.length_encode,
      List.length_cons, ← stack, ih]
    omega

variable {ops : List MetaMergeOp}

variable {raw : Bytes} {parts : List (List MetaMergeOp × Bytes)}
  {steps : List (List (List MetaMergeOp × Bytes))}

/-- **Combining only joins.** -/
lemma Combined.eq_stack (h : Combined ops raw) :
    raw = stack ops ∧ ops ≠ [] := by
  induction h with
  | operand op => exact ⟨by simp [stack], by simp⟩
  | merge parts hne h ih =>
    refine ⟨?_, ?_⟩
    · rw [mergeMeta, stack, List.flatMap_assoc, ← List.flatMap_def]
      exact List.flatMap_congr fun p hp => (ih p hp).1
    · obtain ⟨p, rest, rfl⟩ := List.exists_cons_of_ne_nil hne
      have hp := (ih p List.mem_cons_self).2
      simp [hp]

/-- The operand that a full merge sees in a combined one. -/
def survivor : List MetaMergeOp → Option MetaMergeOp
  | [op] => some op
  | _ => none

lemma Combined.decode (h : Combined ops raw) :
    MetaMergeOp.decode raw = survivor ops := by
  obtain ⟨rfl, hne⟩ := h.eq_stack
  match ops, hne with
  | [op], _ => simpa [stack, survivor] using MetaMergeOp.decode_encode op
  | op :: op' :: rest, _ =>
    refine MetaMergeOp.decode_eq_none ?_
    rw [length_stack]
    simp

/-! ## Over a base -/

/-- The left fold of operands over a base. -/
def applyAll (base : ExtentMeta) (ops : List MetaMergeOp) : ExtentMeta :=
  ops.foldl MetaMergeOp.apply base

/-- **A full merge applies the operands that were not joined.** -/
lemma mergeMeta_encode (base : ExtentMeta) (h : ∀ p ∈ parts, Combined p.1 p.2) :
    mergeMeta (some base.encode) (parts.map Prod.snd)
      = (applyAll base ((parts.map Prod.fst).filterMap survivor)).encode := by
  simp only [mergeMeta, ExtentMeta.decodeValue_encode]
  congr 1
  induction parts generalizing base with
  | nil => rfl
  | cons p parts ih =>
    have hp := (h p List.mem_cons_self).decode
    have htail := fun base => ih base fun q hq => h q (List.mem_cons_of_mem p hq)
    rw [List.map_cons, List.foldl_cons, hp]
    cases hs : survivor p.1 with
    | none =>
      rw [List.map_cons, List.filterMap_cons_none hs]
      exact htail base
    | some op =>
      rw [List.map_cons, List.filterMap_cons_some hs]
      exact htail (op.apply base)

lemma fullMerges_encode (base : ExtentMeta) (h : ∀ step ∈ steps, ∀ p ∈ step, Combined p.1 p.2) :
    fullMerges base.encode (steps.map fun step => step.map Prod.snd)
      = (applyAll base ((steps.flatten.map Prod.fst).filterMap survivor)).encode := by
  induction steps generalizing base with
  | nil => rfl
  | cons step steps ih =>
    rw [List.map_cons, fullMerges, List.foldl_cons,
      mergeMeta_encode base (h step List.mem_cons_self), ← fullMerges,
      ih _ fun step' hs => h step' (List.mem_cons_of_mem step hs), List.flatten_cons,
      List.map_append, List.filterMap_append, applyAll, applyAll, applyAll, List.foldl_append]

/-- What an operand list writes to each field. -/
def sizes (ops : List MetaMergeOp) : List UInt64 :=
  ops.filterMap fun op => match op with | .SetSize size => some size | _ => none

def statuses (ops : List MetaMergeOp) : List ExtentStatus :=
  ops.filterMap fun op => match op with | .SetStatus status => some status | _ => none

def deletions (ops : List MetaMergeOp) : ℕ :=
  (ops.map fun op => match op with | .AddDeletedBytes bytes => bytes.toNat | _ => 0).sum

/-- The fields of the fold: the last size and status, and the saturated sum. -/
lemma applyAll_fields (base : ExtentMeta) (ops : List MetaMergeOp) :
    (applyAll base ops).shardId = base.shardId ∧ (applyAll base ops).createTs = base.createTs
      ∧ (applyAll base ops).size = (sizes ops).getLast?.getD base.size
      ∧ (applyAll base ops).status = (statuses ops).getLast?.getD base.status
      ∧ (applyAll base ops).deletedBytes.toNat
        = min (base.deletedBytes.toNat + deletions ops) (2 ^ 64 - 1) := by
  induction ops generalizing base with
  | nil =>
    have := base.deletedBytes.toNat_lt
    refine ⟨rfl, rfl, rfl, rfl, ?_⟩
    simp only [applyAll, List.foldl_nil, deletions, List.map_nil, List.sum_nil]
    omega
  | cons op ops ih =>
    obtain ⟨h1, h2, h3, h4, h5⟩ := ih (op.apply base)
    have hcons : applyAll base (op :: ops) = applyAll (op.apply base) ops := rfl
    rw [hcons, h1, h2, h3, h4, h5]
    cases op with
    | SetSize size =>
      refine ⟨rfl, rfl, ?_, rfl, by simp [deletions, MetaMergeOp.apply]⟩
      simp only [sizes, List.filterMap_cons, List.getLast?_cons, MetaMergeOp.apply,
        Option.getD_some]
    | SetStatus status =>
      refine ⟨rfl, rfl, rfl, ?_, by simp [deletions, MetaMergeOp.apply]⟩
      simp only [statuses, List.filterMap_cons, List.getLast?_cons, MetaMergeOp.apply,
        Option.getD_some]
    | AddDeletedBytes bytes =>
      refine ⟨rfl, rfl, rfl, rfl, ?_⟩
      simp only [MetaMergeOp.apply, toNat_saturatingAdd, deletions, List.map_cons,
        List.sum_cons]
      omega

/-- What is lost shows in no field: the last size and status are the same without the joined
operands, and the joined ones delete nothing or the counter is full without them. -/
def Harmless (base : ExtentMeta) (groups : List (List MetaMergeOp)) : Prop :=
  (sizes groups.flatten).getLast?.getD base.size
      = (sizes (groups.filterMap survivor)).getLast?.getD base.size
    ∧ (statuses groups.flatten).getLast?.getD base.status
      = (statuses (groups.filterMap survivor)).getLast?.getD base.status
    ∧ (deletions ((groups.filter fun g => (survivor g).isNone).flatten) = 0
      ∨ 2 ^ 64 - 1 ≤ base.deletedBytes.toNat + deletions (groups.filterMap survivor))

instance (base : ExtentMeta) (groups : List (List MetaMergeOp)) :
    Decidable (Harmless base groups) := instDecidableAnd

lemma deletions_append (ops ops' : List MetaMergeOp) :
    deletions (ops ++ ops') = deletions ops + deletions ops' := by
  simp [deletions]

lemma deletions_flatten (groups : List (List MetaMergeOp)) :
    deletions groups.flatten = deletions (groups.filterMap survivor)
      + deletions ((groups.filter fun g => (survivor g).isNone).flatten) := by
  induction groups with
  | nil => rfl
  | cons g groups ih =>
    rw [List.flatten_cons, deletions_append, ih]
    match g with
    | [] =>
      simp only [survivor, List.filterMap_cons, Option.isNone_none, List.filter_cons, if_true,
        List.flatten_cons, List.nil_append]
      simp [deletions]
    | [op] =>
      simp only [survivor, List.filterMap_cons, Option.isNone_some, List.filter_cons]
      simp [deletions]
      omega
    | op :: op' :: rest =>
      simp only [survivor, List.filterMap_cons, Option.isNone_none, List.filter_cons, if_true,
        List.flatten_cons, deletions_append]
      omega

lemma applyAll_eq_iff (base : ExtentMeta) (groups : List (List MetaMergeOp)) :
    applyAll base (groups.filterMap survivor) = applyAll base groups.flatten
      ↔ Harmless base groups := by
  obtain ⟨h1, h2, h3, h4, h5⟩ := applyAll_fields base groups.flatten
  obtain ⟨k1, k2, k3, k4, k5⟩ := applyAll_fields base (groups.filterMap survivor)
  have hsum := deletions_flatten groups
  constructor
  · intro heq
    refine ⟨by rw [← h3, ← k3, heq], by rw [← h4, ← k4, heq], ?_⟩
    rw [heq, h5] at k5
    omega
  · rintro ⟨hsize, hstatus, hdeleted⟩
    have hbytes : (applyAll base (groups.filterMap survivor)).deletedBytes
        = (applyAll base groups.flatten).deletedBytes := by
      apply UInt64.toNat_inj.mp
      rw [h5, k5]
      omega
    rcases ha : applyAll base (groups.filterMap survivor) with ⟨a1, a2, a3, a4, a5⟩
    rcases hb : applyAll base groups.flatten with ⟨b1, b2, b3, b4, b5⟩
    simp only [ha, hb] at h1 h2 h3 h4 k1 k2 k3 k4 hbytes
    simp only [ExtentMeta.mk.injEq]
    exact ⟨k1.trans h1.symm, (k4.trans hstatus.symm).trans h4.symm,
      (k3.trans hsize.symm).trans h3.symm, hbytes, k2.trans h2.symm⟩

/-! ## Without a base -/

/-- The leading byte of a field is at most four: what the status byte of a metadata value must be. -/
def MetaMergeOp.leadsLow : MetaMergeOp → Bool
  | SetSize size => size.toNat < 5 * 2 ^ 56
  | AddDeletedBytes bytes => bytes.toNat < 5 * 2 ^ 56
  | SetStatus _ => true

/-- A stack of operands passes for a metadata value. -/
def PassesForMeta (ops : List MetaMergeOp) : Prop :=
  4 ≤ ops.length ∧ ∀ op ∈ ops.head?, op.leadsLow = true

instance (ops : List MetaMergeOp) : Decidable (PassesForMeta ops) := by
  unfold PassesForMeta
  cases ops.head? <;> infer_instance

lemma le64_getD_seven (x : UInt64) : (le64 x).getD 7 0 = UInt8.ofNat (x.toNat / 256 ^ 7) := by
  simp [le64, be64, beBytes]

/-- The ninth byte of an operand, read as a status. -/
lemma MetaMergeOp.status_byte (op : MetaMergeOp) (t : Bytes) :
    (ExtentStatus.fromU8 ((op.encode ++ t).getD 8 0)).isSome = op.leadsLow := by
  have hbyte : ∀ x : UInt64, (ExtentStatus.fromU8 ((le64 x).getD 7 0)).isSome
      = decide (x.toNat < 5 * 2 ^ 56) := by
    intro x
    have hlt : x.toNat / 256 ^ 7 < 256 := by
      have := x.toNat_lt
      omega
    have hnone := ExtentStatus.fromU8_eq_none_iff ((le64 x).getD 7 0)
    rw [le64_getD_seven] at hnone ⊢
    rw [UInt8.le_iff_toNat_le, UInt8.toNat_ofNat_of_lt' hlt] at hnone
    have h5 : (5 : UInt8).toNat = 5 := rfl
    rw [Bool.eq_iff_iff, Option.isSome_iff_ne_none, Ne, hnone, decide_eq_true_eq, h5]
    omega
  cases op with
  | SetSize size => simpa [encode, leadsLow, List.getElem?_append_left] using hbyte size
  | AddDeletedBytes bytes => simpa [encode, leadsLow, List.getElem?_append_left] using hbyte bytes
  | SetStatus status => rfl

lemma decodeValue_stack (ops : List MetaMergeOp) :
    (ExtentMeta.decodeValue (stack ops)).isSome = true ↔ PassesForMeta ops := by
  unfold ExtentMeta.decodeValue PassesForMeta
  rw [length_stack]
  by_cases hlen : 9 * ops.length < 33
  · rw [if_pos hlen]
    have : ¬ 4 ≤ ops.length := by omega
    simp [this]
  · rw [if_neg hlen]
    cases ops with
    | nil => simp at hlen
    | cons op rest =>
      have hfour : 4 ≤ (op :: rest).length := by omega
      have hstatus := op.status_byte (stack rest)
      have hstack : stack (op :: rest) = op.encode ++ stack rest := by simp [stack]
      rw [← hstack] at hstatus
      cases hs : ExtentStatus.fromU8 ((stack (op :: rest)).getD 8 0) with
      | none =>
        rw [hs] at hstatus
        simp [← hstatus]
      | some status =>
        rw [hs] at hstatus
        simp only [Option.isSome_some, List.head?_cons, Option.mem_def, Option.some.injEq,
          forall_eq', ← hstatus, and_true, true_iff]
        exact hfour

lemma mapM_decode (ops : List MetaMergeOp) :
    (ops.map MetaMergeOp.encode).mapM MetaMergeOp.decode = some ops := by
  induction ops with
  | nil => rfl
  | cons op ops ih => simp [List.mapM_cons, MetaMergeOp.decode_encode, ih]

lemma decodeOperandStack_stack (h : ops ≠ []) :
    decodeOperandStack (stack ops) = some ops := by
  have hlen := length_stack ops
  have hpos : 0 < ops.length := List.length_pos_iff.mpr h
  have hempty : (stack ops).isEmpty = false := by
    rw [List.isEmpty_eq_false_iff, ← List.length_pos_iff]
    omega
  have hstack : stack ops = (ops.map MetaMergeOp.encode).flatten := by
    rw [stack, List.flatMap_def]
  have hmod : ¬ ((stack ops).isEmpty || (stack ops).length % 9 ≠ 0) = true := by
    rw [hempty, hlen]
    simp
  rw [decodeOperandStack, if_neg hmod, hstack, chunks_flatten (by decide) (by simp), mapM_decode]

/-- A step over a pending stack keeps it pending. -/
lemma mergeMeta_stack (hne : ops ≠ []) (hpass : ¬ PassesForMeta ops)
    (h : ∀ p ∈ parts, Combined p.1 p.2) :
    mergeMeta (some (stack ops)) (parts.map Prod.snd) = stack (ops ++ parts.flatMap Prod.fst) := by
  have hnone : ExtentMeta.decodeValue (stack ops) = none := by
    rw [← Option.not_isSome_iff_eq_none, decodeValue_stack]
    exact hpass
  simp only [mergeMeta, hnone, decodeOperandStack_stack hne]
  rw [stack, stack, List.flatMap_append, List.flatMap_assoc, ← List.flatMap_def]
  exact congrArg _ (List.flatMap_congr fun p hp => (h p hp).eq_stack.1)

lemma PassesForMeta.append (h : PassesForMeta ops) (ops' : List MetaMergeOp) :
    PassesForMeta (ops ++ ops') := by
  obtain ⟨hlen, hhead⟩ := h
  obtain ⟨op, rest, rfl⟩ := List.exists_cons_of_length_pos (l := ops) (by omega)
  refine ⟨by simp only [List.length_append]; omega, ?_⟩
  simpa using hhead

/-- Once a stack passes for metadata, full merges go on as if it were. -/
lemma decodeValue_fullMerges {value : Bytes} {m : ExtentMeta}
    (h : ExtentMeta.decodeValue value = some m) (steps : List (List Bytes)) :
    (ExtentMeta.decodeValue (fullMerges value steps)).isSome = true := by
  induction steps generalizing value m with
  | nil => simp [fullMerges, h]
  | cons operands steps ih =>
    rw [fullMerges, List.foldl_cons, ← fullMerges]
    refine ih (m := ?_) ?_
    · exact operands.foldl
        (fun m raw =>
          match MetaMergeOp.decode raw with
          | some op => op.apply m
          | none => m) m
    · simp only [mergeMeta, h, ExtentMeta.decodeValue_encode]

lemma fullMerges_stack (hne : ops ≠ []) (h : ∀ step ∈ steps, ∀ p ∈ step, Combined p.1 p.2) :
    (ExtentMeta.decodeValue
        (fullMerges (stack ops) (steps.map fun step => step.map Prod.snd))).isSome = true
      ↔ PassesForMeta (ops ++ steps.flatten.flatMap Prod.fst) := by
  induction steps generalizing ops with
  | nil => simpa [fullMerges] using decodeValue_stack ops
  | cons step steps ih =>
    by_cases hpass : PassesForMeta ops
    · obtain ⟨m, hm⟩ := Option.isSome_iff_exists.mp ((decodeValue_stack ops).mpr hpass)
      exact iff_of_true (decodeValue_fullMerges hm _) (hpass.append _)
    · rw [List.map_cons, fullMerges, List.foldl_cons,
        mergeMeta_stack hne hpass (h step List.mem_cons_self), ← fullMerges,
        ih (by simp [hne]) fun step' hs => h step' (List.mem_cons_of_mem step hs),
        List.flatten_cons, List.flatMap_append, List.append_assoc]

/-! ## The law -/

/-- **When the merge function is a lawful merge operator.**  Operands may be joined in any nesting
of partial merges and reach the base in any number of full merges.  The result is the left fold of
all operands exactly if what is lost by joining shows in no field.  Merged with no base at all, the
operands decode as no metadata value exactly if there are fewer than four of them or the first one
sets or adds at least `5 · 2⁵⁶`. -/
theorem merge_meta_lawful_iff (steps : List (List (List MetaMergeOp × Bytes)))
    (h : ∀ step ∈ steps, ∀ p ∈ step, Combined p.1 p.2) :
    (∀ base : ExtentMeta,
      fullMerges base.encode (steps.map fun step => step.map Prod.snd)
          = (applyAll base (steps.flatten.flatMap Prod.fst)).encode
        ↔ Harmless base (steps.flatten.map Prod.fst))
    ∧ ∀ first rest, steps = first :: rest → first ≠ [] →
      (ExtentMeta.decodeValue (fullMerges (mergeMeta none (first.map Prod.snd))
          (rest.map fun step => step.map Prod.snd)) = none
        ↔ ¬ PassesForMeta (steps.flatten.flatMap Prod.fst)) := by
  refine ⟨fun base => ?_, ?_⟩
  · have hinj : ∀ {a b : ExtentMeta}, a.encode = b.encode ↔ a = b := by
      intro a b
      refine ⟨fun hab => ?_, fun hab => by rw [hab]⟩
      have hdecode := congrArg ExtentMeta.decodeValue hab
      rw [ExtentMeta.decodeValue_encode, ExtentMeta.decodeValue_encode] at hdecode
      exact Option.some.inj hdecode
    rw [fullMerges_encode base h, hinj, List.flatMap_def, applyAll_eq_iff]
  · rintro first rest rfl hne
    have hfirst : Combined (first.flatMap Prod.fst) (mergeMeta none (first.map Prod.snd)) :=
      .merge first hne (h first List.mem_cons_self)
    obtain ⟨hstack, hops⟩ := hfirst.eq_stack
    rw [hstack, ← Option.not_isSome_iff_eq_none,
      fullMerges_stack hops fun step hs => h step (List.mem_cons_of_mem first hs),
      List.flatten_cons, List.flatMap_append]

/-- Operands that reach the base one by one are all applied, and three of them without a base stay
undecodable. -/
theorem merge_meta_lawful_demo :
    fullMerges (ExtentMeta.encode ⟨7, .Writable, 4096, 0, 42⟩)
        [[MetaMergeOp.encode (.SetSize 8192), MetaMergeOp.encode (.AddDeletedBytes 5)],
          [MetaMergeOp.encode (.SetStatus .Sealed)]]
      = ExtentMeta.encode ⟨7, .Sealed, 8192, 5, 42⟩
    ∧ ExtentMeta.decodeValue (fullMerges
        (mergeMeta none [MetaMergeOp.encode (.SetSize 8192), MetaMergeOp.encode (.AddDeletedBytes 5)])
        [[MetaMergeOp.encode (.SetStatus .Sealed)]]) = none := by
  have h := merge_meta_lawful_iff
    [[([.SetSize 8192], MetaMergeOp.encode (.SetSize 8192)),
        ([.AddDeletedBytes 5], MetaMergeOp.encode (.AddDeletedBytes 5))],
      [([.SetStatus .Sealed], MetaMergeOp.encode (.SetStatus .Sealed))]] (by
        intro step hs p hp
        simp only [List.mem_cons, List.not_mem_nil, or_false] at hs
        rcases hs with rfl | rfl <;> simp only [List.mem_cons, List.not_mem_nil, or_false] at hp
        · rcases hp with rfl | rfl <;> exact .operand _
        · subst hp
          exact .operand _)
  exact ⟨(h.1 ⟨7, .Writable, 4096, 0, 42⟩).mpr (by decide +kernel),
    (h.2 _ _ rfl (by simp)).mpr (by decide +kernel)⟩

/-- A size and a deletion that a partial merge joins are lost when the base arrives, and four
operands without a base decode as a metadata value. -/
theorem merge_meta_loses_operands :
    (∃ raw, Combined [.SetSize 8192, .AddDeletedBytes 5] raw
      ∧ fullMerges (ExtentMeta.encode ⟨7, .Writable, 4096, 0, 42⟩) [[raw]]
        = ExtentMeta.encode ⟨7, .Writable, 4096, 0, 42⟩
      ∧ applyAll ⟨7, .Writable, 4096, 0, 42⟩ [.SetSize 8192, .AddDeletedBytes 5]
        = ⟨7, .Writable, 8192, 5, 42⟩)
    ∧ ∃ raw, Combined (List.replicate 4 (.SetSize 8192)) raw
      ∧ (ExtentMeta.decodeValue raw).isSome = true := by
  refine ⟨⟨mergeMeta none [MetaMergeOp.encode (.SetSize 8192),
      MetaMergeOp.encode (.AddDeletedBytes 5)], ?_, by decide +kernel, by decide +kernel⟩,
    ⟨mergeMeta none (List.replicate 4 (MetaMergeOp.encode (.SetSize 8192))), ?_,
      by decide +kernel⟩⟩
  · refine .merge [([.SetSize 8192], _), ([.AddDeletedBytes 5], _)] (by simp) ?_
    intro p hp
    simp only [List.mem_cons, List.not_mem_nil, or_false] at hp
    rcases hp with rfl | rfl <;> exact .operand _
  · refine .merge (List.replicate 4 ([.SetSize 8192], _)) (by simp) ?_
    intro p hp
    obtain rfl := List.eq_of_mem_replicate hp
    exact .operand _

end Epoch
