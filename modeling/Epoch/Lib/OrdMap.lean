import Mathlib

/-!
# Finite ordered maps

An `OrdMap κ ν` is a list of bindings in strictly increasing key order; the order is a field, so
a map with a duplicate or misplaced key cannot be built.  Lookups determine the map (`ext_get`),
and everything else is stated through them.

Besides the pointwise laws of `insert` and `erase` two things are developed here.

* **Batches.**  `writeAll` runs a list of puts (`some v`) and deletes (`none`) in order.  Its
  effect on one key is that of the last write naming it (`get_writeAll`).
* **Totals.**  `total f m` adds up `f k v` over all bindings, in any commutative monoid.  A write
  trades the old binding's contribution for the new one's (`total_insert`, `total_erase`), and
  dropping every binding that satisfies a predicate subtracts exactly theirs
  (`total_writeAll_erase_filter`).
-/

namespace Epoch

variable {κ ν : Type*} [LinearOrder κ]

structure OrdMap (κ ν : Type*) [LinearOrder κ] where
  toList : List (κ × ν)
  sorted : toList.Pairwise fun a b => a.1 < b.1

namespace OrdMap

/-! ## Lookup -/

def empty : OrdMap κ ν := ⟨[], List.Pairwise.nil⟩

def get (m : OrdMap κ ν) (k : κ) : Option ν :=
  (m.toList.find? fun e => e.1 = k).map Prod.snd

@[simp] lemma get_empty (k : κ) : (empty : OrdMap κ ν).get k = none := rfl

lemma pairwise_eq_of_key_eq {l : List (κ × ν)} (h : l.Pairwise fun a b => a.1 < b.1)
    {a b : κ × ν} (ha : a ∈ l) (hb : b ∈ l) (hab : a.1 = b.1) : a = b := by
  induction l with
  | nil => simp at ha
  | cons c l ih =>
    rw [List.pairwise_cons] at h
    rcases List.mem_cons.mp ha with rfl | ha'
    · rcases List.mem_cons.mp hb with rfl | hb'
      · rfl
      · exact absurd hab (ne_of_lt (h.1 b hb'))
    · rcases List.mem_cons.mp hb with rfl | hb'
      · exact absurd hab.symm (ne_of_lt (h.1 a ha'))
      · exact ih h.2 ha' hb'

lemma mem_toList_iff (m : OrdMap κ ν) (k : κ) (v : ν) :
    (k, v) ∈ m.toList ↔ m.get k = some v := by
  constructor
  · intro h
    have hfind : m.toList.find? (fun e => e.1 = k) = some (k, v) := by
      cases hf : m.toList.find? (fun e => e.1 = k) with
      | none => exact absurd (List.find?_eq_none.mp hf _ h) (by simp)
      | some e =>
        have he := List.find?_some hf
        simp only [decide_eq_true_eq] at he
        exact congrArg some (pairwise_eq_of_key_eq m.sorted (List.mem_of_find?_eq_some hf) h he)
    rw [get, hfind]
    rfl
  · intro h
    rw [get, Option.map_eq_some_iff] at h
    obtain ⟨e, he, rfl⟩ := h
    have hk := List.find?_some he
    simp only [decide_eq_true_eq] at hk
    subst hk
    exact List.mem_of_find?_eq_some he

lemma nodup_keys (m : OrdMap κ ν) : (m.toList.map Prod.fst).Nodup :=
  List.pairwise_map.mpr (m.sorted.imp ne_of_lt)

lemma nodup_toList (m : OrdMap κ ν) : m.toList.Nodup := m.nodup_keys.of_map

/-- Lookups determine the map. -/
theorem ext_get {m m' : OrdMap κ ν} (h : ∀ k, m.get k = m'.get k) : m = m' := by
  have hmem : ∀ e : κ × ν, e ∈ m.toList ↔ e ∈ m'.toList := by
    rintro ⟨k, v⟩
    rw [mem_toList_iff, mem_toList_iff, h]
  have hperm : m.toList.Perm m'.toList :=
    (List.perm_ext_iff_of_nodup m.nodup_toList m'.nodup_toList).mpr hmem
  have hlist : m.toList = m'.toList :=
    hperm.eq_of_pairwise (fun a b _ _ hab hba => absurd hab (not_lt.mpr hba.le)) m.sorted m'.sorted
  cases m; cases m'; cases hlist; rfl

/-! ## Insertion and removal -/

def insertList (k : κ) (v : ν) : List (κ × ν) → List (κ × ν)
  | [] => [(k, v)]
  | e :: l =>
    if k < e.1 then (k, v) :: e :: l
    else if k = e.1 then (k, v) :: l
    else e :: insertList k v l

lemma mem_insertList {k : κ} {v : ν} {l : List (κ × ν)} {e : κ × ν}
    (h : e ∈ insertList k v l) : e = (k, v) ∨ e ∈ l := by
  induction l with
  | nil => exact Or.inl (by simpa [insertList] using h)
  | cons c l ih =>
    rw [insertList] at h
    split_ifs at h
    · exact List.mem_cons.mp h
    · exact (List.mem_cons.mp h).imp_right (List.mem_cons_of_mem _)
    · rcases List.mem_cons.mp h with rfl | h
      · exact Or.inr List.mem_cons_self
      · exact (ih h).imp_right (List.mem_cons_of_mem _)

lemma pairwise_insertList (k : κ) (v : ν) {l : List (κ × ν)}
    (h : l.Pairwise fun a b => a.1 < b.1) :
    (insertList k v l).Pairwise fun a b => a.1 < b.1 := by
  induction l with
  | nil => simp [insertList]
  | cons c l ih =>
    rw [List.pairwise_cons] at h
    rw [insertList]
    split_ifs with h1 h2
    · refine List.pairwise_cons.mpr ⟨?_, List.pairwise_cons.mpr h⟩
      intro e he
      rcases List.mem_cons.mp he with rfl | he
      · exact h1
      · exact h1.trans (h.1 e he)
    · subst h2
      exact List.pairwise_cons.mpr ⟨fun e he => h.1 e he, h.2⟩
    · refine List.pairwise_cons.mpr ⟨?_, ih h.2⟩
      intro e he
      rcases mem_insertList he with rfl | he
      · exact lt_of_le_of_ne (not_lt.mp h1) (Ne.symm h2)
      · exact h.1 e he

def insert (m : OrdMap κ ν) (k : κ) (v : ν) : OrdMap κ ν :=
  ⟨insertList k v m.toList, pairwise_insertList k v m.sorted⟩

/-- Keep only the bindings that satisfy `p`. -/
def filter (m : OrdMap κ ν) (p : κ × ν → Bool) : OrdMap κ ν :=
  ⟨m.toList.filter p, m.sorted.filter p⟩

def erase (m : OrdMap κ ν) (k : κ) : OrdMap κ ν := m.filter fun e => e.1 ≠ k

lemma find?_insertList (k k' : κ) (v : ν) (l : List (κ × ν)) :
    (insertList k v l).find? (fun e => e.1 = k') =
      if k = k' then some (k, v) else l.find? (fun e => e.1 = k') := by
  induction l with
  | nil => by_cases h : k = k' <;> simp [insertList, h]
  | cons c l ih =>
    by_cases hk : k = k'
    · subst hk
      rw [if_pos rfl, insertList]
      split_ifs with h1 h2
      · simp
      · simp
      · simp [Ne.symm h2, ih]
    · rw [if_neg hk, insertList]
      split_ifs with h1 h2
      · simp [hk]
      · subst h2; simp [hk]
      · simp [List.find?_cons, ih, hk]

@[simp] theorem get_insert (m : OrdMap κ ν) (k k' : κ) (v : ν) :
    (m.insert k v).get k' = if k = k' then some v else m.get k' := by
  rw [get, insert, find?_insertList]
  split_ifs <;> rfl

@[simp] lemma get_filter (m : OrdMap κ ν) (p : κ × ν → Bool) (k : κ) :
    (m.filter p).get k = (m.get k).filter fun v => p (k, v) := by
  apply Option.ext
  intro v
  rw [← mem_toList_iff, filter, List.mem_filter, mem_toList_iff, Option.filter_eq_some_iff]

@[simp] theorem get_erase (m : OrdMap κ ν) (k k' : κ) :
    (m.erase k).get k' = if k = k' then none else m.get k' := by
  rw [erase, get_filter]
  by_cases h : k = k'
  · subst h; cases m.get k <;> simp
  · cases hm : m.get k' <;> simp [h, Ne.symm h]

/-! ## Batches -/

/-- One put (`some v`) or delete (`none`). -/
def write (m : OrdMap κ ν) (w : κ × Option ν) : OrdMap κ ν :=
  match w.2 with
  | some v => m.insert w.1 v
  | none => m.erase w.1

def writeAll (m : OrdMap κ ν) (ws : List (κ × Option ν)) : OrdMap κ ν := ws.foldl write m

/-- What the last write of the batch naming `k` left there, if any did. -/
def lastWrite (ws : List (κ × Option ν)) (k : κ) : Option (Option ν) :=
  (ws.reverse.find? fun w => w.1 = k).map Prod.snd

@[simp] lemma writeAll_nil (m : OrdMap κ ν) : m.writeAll [] = m := rfl

lemma writeAll_cons (m : OrdMap κ ν) (w : κ × Option ν) (ws : List (κ × Option ν)) :
    m.writeAll (w :: ws) = (m.write w).writeAll ws := rfl

lemma writeAll_append (m : OrdMap κ ν) (ws ws' : List (κ × Option ν)) :
    m.writeAll (ws ++ ws') = (m.writeAll ws).writeAll ws' := List.foldl_append

@[simp] lemma get_write (m : OrdMap κ ν) (w : κ × Option ν) (k : κ) :
    (m.write w).get k = if w.1 = k then w.2 else m.get k := by
  rcases w with ⟨k', _ | v⟩ <;> simp [write]

theorem get_writeAll (m : OrdMap κ ν) (ws : List (κ × Option ν)) (k : κ) :
    (m.writeAll ws).get k = (lastWrite ws k).getD (m.get k) := by
  induction ws using List.reverseRecOn with
  | nil => rfl
  | append_singleton ws w ih =>
    rw [writeAll_append, writeAll_cons, writeAll_nil, get_write, ih]
    simp only [lastWrite, List.reverse_append, List.reverse_cons, List.reverse_nil,
      List.nil_append, List.singleton_append, List.find?_cons]
    by_cases h : w.1 = k <;> simp [h]

/-- A batch that does not name `k` leaves it alone. -/
lemma get_writeAll_of_notMem {m : OrdMap κ ν} {ws : List (κ × Option ν)} {k : κ}
    (h : k ∉ ws.map Prod.fst) : (m.writeAll ws).get k = m.get k := by
  rw [get_writeAll, lastWrite]
  have hnone : ws.reverse.find? (fun w => w.1 = k) = none := by
    rw [List.find?_eq_none]
    intro w hw
    simp only [decide_eq_true_eq]
    intro hk
    exact h (List.mem_map.mpr ⟨w, List.mem_reverse.mp hw, hk⟩)
  rw [hnone]
  rfl

/-- A batch whose every write of `k` writes the same thing, and that has one. -/
lemma get_writeAll_of_forall {m : OrdMap κ ν} {ws : List (κ × Option ν)} {k : κ} {o : Option ν}
    (hmem : (k, o) ∈ ws) (hall : ∀ o', (k, o') ∈ ws → o' = o) : (m.writeAll ws).get k = o := by
  rw [get_writeAll, lastWrite]
  cases hf : ws.reverse.find? (fun w => w.1 = k) with
  | none => exact absurd (List.find?_eq_none.mp hf _ (List.mem_reverse.mpr hmem)) (by simp)
  | some w =>
    have hk := List.find?_some hf
    simp only [decide_eq_true_eq] at hk
    have hw := List.mem_reverse.mp (List.mem_of_find?_eq_some hf)
    obtain ⟨k', o'⟩ := w
    simp only at hk
    subst hk
    simp [hall o' hw]

/-- What a key holds after a batch was there before, or is what the batch wrote last. -/
lemma get_writeAll_cases (m : OrdMap κ ν) (ws : List (κ × Option ν)) (k : κ) :
    (m.writeAll ws).get k = m.get k ∨ (k, (m.writeAll ws).get k) ∈ ws := by
  rw [get_writeAll, lastWrite]
  cases hf : ws.reverse.find? (fun w => w.1 = k) with
  | none => exact Or.inl rfl
  | some w =>
    have hk := List.find?_some hf
    simp only [decide_eq_true_eq] at hk
    right
    rw [← hk]
    exact List.mem_reverse.mp (List.mem_of_find?_eq_some hf)

/-- A binding present after a batch was put by it or was there before. -/
lemma get_writeAll_eq_some {m : OrdMap κ ν} {ws : List (κ × Option ν)} {k : κ} {v : ν}
    (h : (m.writeAll ws).get k = some v) : (k, some v) ∈ ws ∨ m.get k = some v := by
  rcases m.get_writeAll_cases ws k with hsame | hmem
  · exact Or.inr (hsame.symm.trans h)
  · exact Or.inl (h ▸ hmem)

/-- A batch of deletes. -/
lemma get_writeAll_deletes (m : OrdMap κ ν) (ks : List κ) (k : κ) :
    (m.writeAll (ks.map fun x => (x, none))).get k = if k ∈ ks then none else m.get k := by
  by_cases h : k ∈ ks
  · rw [if_pos h]
    refine get_writeAll_of_forall (List.mem_map.mpr ⟨k, h, rfl⟩) ?_
    intro o' ho'
    obtain ⟨x, _, hx⟩ := List.mem_map.mp ho'
    exact (Prod.ext_iff.mp hx).2.symm
  · rw [if_neg h]
    refine get_writeAll_of_notMem ?_
    simpa [Function.comp_def] using h

/-- Deleting keys that are already gone changes nothing. -/
lemma writeAll_deletes_of_subset (m : OrdMap κ ν) {ks ks' : List κ} (h : ks' ⊆ ks) :
    (m.writeAll (ks.map fun x => (x, none))).writeAll (ks'.map fun x => (x, none))
      = m.writeAll (ks.map fun x => (x, none)) := by
  apply ext_get
  intro k
  rw [get_writeAll_deletes, get_writeAll_deletes]
  by_cases hk : k ∈ ks'
  · rw [if_pos hk, if_pos (h hk)]
  · rw [if_neg hk]

/-! ## Totals -/

section Total

variable {M : Type*} [AddCommMonoid M]

/-- The sum of `f k v` over all bindings. -/
def total (f : κ → ν → M) (m : OrdMap κ ν) : M := (m.toList.map fun e => f e.1 e.2).sum

@[simp] lemma total_empty (f : κ → ν → M) : total f (empty : OrdMap κ ν) = 0 := rfl

lemma sum_insertList (f : κ → ν → M) (k : κ) (v : ν) {l : List (κ × ν)}
    (h : l.Pairwise fun a b => a.1 < b.1) :
    ((insertList k v l).map fun e => f e.1 e.2).sum
        + ((l.find? fun e => e.1 = k).map fun e => f e.1 e.2).getD 0
      = (l.map fun e => f e.1 e.2).sum + f k v := by
  induction l with
  | nil => simp [insertList]
  | cons c l ih =>
    rw [List.pairwise_cons] at h
    rw [insertList]
    split_ifs with h1 h2
    · -- a key below the head is absent
      have hnone : (c :: l).find? (fun e => e.1 = k) = none := by
        rw [List.find?_eq_none]
        intro e he
        simp only [decide_eq_true_eq]
        rcases List.mem_cons.mp he with rfl | he
        · exact ne_of_gt h1
        · exact ne_of_gt (h1.trans (h.1 e he))
      rw [hnone]
      simp [add_comm]
    · subst h2
      simp only [List.map_cons, List.sum_cons, List.find?_cons, decide_true, Option.map_some,
        Option.getD_some]
      abel
    · have hc : decide (c.1 = k) = false := by simpa using Ne.symm h2
      simp only [List.map_cons, List.sum_cons, List.find?_cons, hc]
      rw [add_assoc, ih h.2, add_assoc]

/-- An insertion adds the new binding's share and gives back the old one's. -/
theorem total_insert (f : κ → ν → M) (m : OrdMap κ ν) (k : κ) (v : ν) :
    total f (m.insert k v) + ((m.get k).map (f k)).getD 0 = total f m + f k v := by
  have h := sum_insertList f k v m.sorted
  have hold : ((m.get k).map (f k)).getD 0
      = ((m.toList.find? fun e => e.1 = k).map fun e => f e.1 e.2).getD 0 := by
    rw [get]
    cases hf : m.toList.find? (fun e => e.1 = k) with
    | none => rfl
    | some e =>
      have hk := List.find?_some hf
      simp only [decide_eq_true_eq] at hk
      subst hk
      rfl
  rw [hold]
  exact h

omit [LinearOrder κ] in
lemma sum_filter_add_sum_filter_not (f : κ × ν → M) (p : κ × ν → Bool) (l : List (κ × ν)) :
    ((l.filter p).map f).sum + ((l.filter fun e => !p e).map f).sum = (l.map f).sum := by
  induction l with
  | nil => simp
  | cons c l ih =>
    simp only [List.filter_cons, List.map_cons, List.sum_cons]
    rw [← ih]
    cases hp : p c
    · simp only [Bool.false_eq_true, if_false, Bool.not_false, if_true, List.map_cons,
        List.sum_cons]
      abel
    · simp only [if_true, Bool.not_true, Bool.false_eq_true, if_false, List.map_cons,
        List.sum_cons]
      abel

lemma total_filter_not (f : κ → ν → M) (m : OrdMap κ ν) (p : κ × ν → Bool) :
    total f (m.filter fun e => !p e) + ((m.toList.filter p).map fun e => f e.1 e.2).sum
      = total f m := by
  rw [add_comm]
  exact sum_filter_add_sum_filter_not (fun e => f e.1 e.2) p m.toList

/-- A removal gives back the removed binding's share. -/
theorem total_erase (f : κ → ν → M) (m : OrdMap κ ν) (k : κ) :
    total f (m.erase k) + ((m.get k).map (f k)).getD 0 = total f m := by
  have hback : (m.erase k).insert k = fun v => m.insert k v := by
    funext v
    apply ext_get
    intro k'
    by_cases h : k = k' <;> simp [h]
  have habs : (m.erase k).get k = none := by simp
  cases hg : m.get k with
  | none =>
    have hsame : m.erase k = m := by
      apply ext_get
      intro k'
      by_cases h : k = k'
      · subst h; simp [hg]
      · simp [h]
    simp [hsame]
  | some v =>
    have hins : m.insert k v = m := by
      apply ext_get
      intro k'
      by_cases h : k = k'
      · subst h; simp [hg]
      · simp [h]
    have h1 := total_insert f (m.erase k) k v
    rw [hback, habs] at h1
    simp only [hins, Option.map_none, Option.getD_none, add_zero] at h1
    simpa using h1.symm

lemma writeAll_erase_filter (m : OrdMap κ ν) (p : κ → Bool) :
    m.writeAll ((m.toList.filter fun e => p e.1).map fun e => (e.1, none))
      = m.filter fun e => !p e.1 := by
  apply ext_get
  intro k
  have hlist : ((m.toList.filter fun e => p e.1).map fun e => (e.1, (none : Option ν)))
      = ((m.toList.filter fun e => p e.1).map Prod.fst).map fun x => (x, none) := by
    simp [List.map_map, Function.comp_def]
  rw [hlist, get_writeAll_deletes, get_filter]
  cases hg : m.get k with
  | none => simp
  | some v =>
    have hmem := (m.mem_toList_iff k v).mpr hg
    cases hp : p k
    · rw [if_neg]
      · simp [hp, Option.filter]
      · intro h
        obtain ⟨e, he, rfl⟩ := List.mem_map.mp h
        simp [hp] at he
    · rw [if_pos]
      · simp [hp]
      · exact List.mem_map.mpr ⟨(k, v), List.mem_filter.mpr ⟨hmem, hp⟩, rfl⟩

/-- Deleting every binding whose key satisfies `p` subtracts exactly their share. -/
theorem total_writeAll_erase_filter (f : κ → ν → M) (m : OrdMap κ ν) (p : κ → Bool) :
    total f (m.writeAll ((m.toList.filter fun e => p e.1).map fun e => (e.1, none)))
        + ((m.toList.filter fun e => p e.1).map fun e => f e.1 e.2).sum
      = total f m := by
  rw [writeAll_erase_filter]
  exact total_filter_not f m fun e => p e.1

lemma total_write (f : κ → ν → M) (m : OrdMap κ ν) (w : κ × Option ν) :
    total f (m.write w) + ((m.get w.1).map (f w.1)).getD 0
      = total f m + (w.2.map (f w.1)).getD 0 := by
  obtain ⟨k, _ | v⟩ := w
  · exact (total_erase f m k).trans (add_zero _).symm
  · exact total_insert f m k v

/-- A batch of writes to distinct keys trades the old bindings' share for the new ones'. -/
theorem total_writeAll (f : κ → ν → M) (m : OrdMap κ ν) (ws : List (κ × Option ν))
    (hnd : (ws.map Prod.fst).Nodup) :
    total f (m.writeAll ws) + (ws.map fun w => ((m.get w.1).map (f w.1)).getD 0).sum
      = total f m + (ws.map fun w => (w.2.map (f w.1)).getD 0).sum := by
  induction ws generalizing m with
  | nil => simp
  | cons w ws ih =>
    simp only [List.map_cons, List.nodup_cons] at hnd
    -- the later writes see the old bindings of their keys
    have hsame : (ws.map fun w' => (((m.write w).get w'.1).map (f w'.1)).getD 0)
        = ws.map fun w' => ((m.get w'.1).map (f w'.1)).getD 0 := by
      refine List.map_congr_left fun w' hw' => ?_
      rw [get_write, if_neg]
      intro heq
      exact hnd.1 (List.mem_map.mpr ⟨w', hw', heq.symm⟩)
    have ih' := ih (m.write w) hnd.2
    rw [hsame] at ih'
    rw [writeAll_cons, List.map_cons, List.sum_cons, List.map_cons, List.sum_cons,
      add_left_comm, ih', add_left_comm, ← add_assoc, total_write, add_assoc]

/-- Writes to keys without a share leave the total as it is. -/
lemma total_writeAll_of_eq_zero (f : κ → ν → M) (m : OrdMap κ ν) {ws : List (κ × Option ν)}
    (h : ∀ w ∈ ws, ∀ v, f w.1 v = 0) : total f (m.writeAll ws) = total f m := by
  induction ws generalizing m with
  | nil => rfl
  | cons w ws ih =>
    have hzero : ∀ o : Option ν, (o.map (f w.1)).getD 0 = 0 := by
      intro o
      cases o with
      | none => rfl
      | some v => exact h w List.mem_cons_self v
    have hw := total_write f m w
    rw [hzero, hzero, add_zero, add_zero] at hw
    rw [writeAll_cons, ih _ fun w' hw' => h w' (List.mem_cons_of_mem w hw'), hw]

/-- A batch of puts to distinct keys, with the shares of the old and the new bindings given. -/
theorem total_writeAll_puts {β : Type*} (f : κ → ν → M) (m : OrdMap κ ν) {l : List β} {key : β → κ}
    {val : β → ν} (old new : β → M) (hnd : (l.map key).Nodup)
    (hold : ∀ b ∈ l, ((m.get (key b)).map (f (key b))).getD 0 = old b)
    (hnew : ∀ b ∈ l, f (key b) (val b) = new b) :
    total f (m.writeAll (l.map fun b => (key b, some (val b)))) + (l.map old).sum
      = total f m + (l.map new).sum := by
  have hkeys : ((l.map fun b => (key b, some (val b))).map Prod.fst).Nodup := by
    rw [List.map_map]
    exact hnd
  have h := total_writeAll f m _ hkeys
  rw [List.map_map, List.map_map] at h
  rw [← List.map_congr_left hold, ← List.map_congr_left hnew]
  exact h

/-- Putting distinct, absent keys adds exactly the new bindings' share. -/
theorem total_writeAll_fresh (f : κ → ν → M) (m : OrdMap κ ν) (es : List (κ × ν))
    (hnd : (es.map Prod.fst).Nodup) (habs : ∀ e ∈ es, m.get e.1 = none) :
    total f (m.writeAll (es.map fun e => (e.1, some e.2)))
      = total f m + (es.map fun e => f e.1 e.2).sum := by
  have h := total_writeAll f m (es.map fun e => (e.1, some e.2)) (by simpa [Function.comp_def] using hnd)
  have hold : (es.map fun e => ((m.get e.1).map (f e.1)).getD 0) = es.map fun _ => 0 :=
    List.map_congr_left fun e he => by rw [habs e he]; rfl
  simpa [List.map_map, Function.comp_def, hold] using h

/-- The total of the bindings under the keys that satisfy `p`. -/
lemma total_ite (f : κ → ν → M) (p : κ → Bool) (m : OrdMap κ ν) :
    total (fun k v => if p k then f k v else 0) m
      = ((m.toList.filter fun e => p e.1).map fun e => f e.1 e.2).sum := by
  rw [total]
  induction m.toList with
  | nil => rfl
  | cons e l ih => cases h : p e.1 <;> simp [h, ih]

/-- The total as a sum over any set that covers the keys. -/
lemma total_eq_sum (f : κ → ν → M) (m : OrdMap κ ν) {s : Finset κ}
    (hs : (m.toList.map Prod.fst).toFinset ⊆ s) :
    total f m = ∑ k ∈ s, ((m.get k).map (f k)).getD 0 := by
  have hzero : ∀ k ∈ s, k ∉ (m.toList.map Prod.fst).toFinset →
      ((m.get k).map (f k)).getD 0 = 0 := by
    intro k _ hk
    cases hget : m.get k with
    | none => rfl
    | some v =>
      refine absurd ?_ hk
      exact List.mem_toFinset.mpr (List.mem_map_of_mem ((m.mem_toList_iff k v).mpr hget))
  rw [← Finset.sum_subset hs hzero, List.sum_toFinset _ m.nodup_keys, List.map_map, total]
  congr 1
  refine List.map_congr_left fun e he => ?_
  simp [(m.mem_toList_iff e.1 e.2).mp he]

/-- Maps whose bindings have the same share under every key have the same total. -/
theorem total_congr {f f' : κ → ν → M} {m m' : OrdMap κ ν}
    (h : ∀ k, ((m.get k).map (f k)).getD 0 = ((m'.get k).map (f' k)).getD 0) :
    total f m = total f' m' := by
  rw [total_eq_sum f m Finset.subset_union_left, total_eq_sum f' m' Finset.subset_union_right]
  exact Finset.sum_congr rfl fun k _ => h k

lemma share_le_total [PartialOrder M] [CanonicallyOrderedAdd M] (f : κ → ν → M) (m : OrdMap κ ν)
    (k : κ) : ((m.get k).map (f k)).getD 0 ≤ total f m := by
  rw [← total_erase f m k]
  exact le_add_self

end Total

end OrdMap

end Epoch
