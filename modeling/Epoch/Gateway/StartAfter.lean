import Epoch.Gateway.Partitions

/-!
# Listings with a `start_after` (`ns_flat/mod.rs`)

`ns_flat::list` starts its scan at the client's `start_after` and ends it after the prefix.  The
start is not raised to the prefix, so a `start_after` below the prefix opens the scan to the keys in
between, which do not carry the prefix (`Scanned`).

`list_exact_iff`: a page is right, and the pages that follow the last key returned are every object
once, exactly when no object of the bucket lies strictly between `start_after` and the prefix.
-/

namespace Epoch.Gateway

/-- The pages of a client that asks again after the last key it was given, until a page is empty;
`none` when that takes more than `n` requests. -/
def Engine.listAll (e : Engine) (bucket : BucketId) (pre : Bytes) (limit : ℕ) :
    ℕ → Option Bytes → Except Fault (Option (List (Bytes × ObjectHead)))
  | 0, _ => .ok none
  | n + 1, startAfter =>
    match e.list bucket pre startAfter limit with
    | .error fault => .error fault
    | .ok page =>
      match page.getLast? with
      | none => .ok (some [])
      | some last => (listAll e bucket pre limit n (some last.1)).map (Option.map (page ++ ·))

/-- The objects a listing is to return, over all its pages: those under the prefix, and strictly
after `start_after` when it is given. -/
def listable (objects : List (Bytes × ObjectHead)) (pre : Bytes) (startAfter : Option Bytes) :
    List (Bytes × ObjectHead) :=
  (under objects pre).filter fun e => ∀ after ∈ startAfter, after < e.1

/-- No object lies strictly between `start_after` and the prefix. -/
def NoneBelow (objects : List (Bytes × ObjectHead)) (pre : Bytes) (startAfter : Option Bytes) :
    Prop :=
  ∀ after ∈ startAfter, ∀ e ∈ objects, after < e.1 → ¬ e.1 < pre

instance (objects : List (Bytes × ObjectHead)) (pre : Bytes) (startAfter : Option Bytes) :
    Decidable (NoneBelow objects pre startAfter) :=
  inferInstanceAs (Decidable (∀ after ∈ startAfter, _))

section StartAfter

variable {store : MetaStore} {bucket : BucketId} {objects : List (Bytes × ObjectHead)} {pre : Bytes}
  {startAfter : Option Bytes}

lemma listable_eq_filter_scanned :
    listable objects pre startAfter
      = (objects.filter fun e => Scanned pre startAfter e.1).filter fun e => pre <+: e.1 := by
  rw [listable, under, List.filter_filter, List.filter_filter]
  refine List.filter_congr fun e _ => ?_
  rw [← Bool.decide_and, ← Bool.decide_and, decide_eq_decide]
  cases startAfter with
  | none => simp [Scanned]
  | some after => by_cases hpre : pre <+: e.1 <;> simp [Scanned, hpre]

/-- The objects that are scanned in vain come before all others. -/
lemma noneBelow_iff (hsorted : objects.Pairwise fun a b => a.1 < b.1) {limit : ℕ} (hlimit : 0 < limit) :
    NoneBelow objects pre startAfter
      ↔ ∀ e ∈ (objects.filter fun e => Scanned pre startAfter e.1).take limit, pre <+: e.1 := by
  constructor
  · intro h e he
    obtain ⟨hmem, hscan⟩ := List.mem_filter.mp (List.mem_of_mem_take he)
    cases startAfter with
    | none => exact of_decide_eq_true hscan
    | some after =>
      obtain ⟨hlt, hpre⟩ := of_decide_eq_true hscan
      exact hpre.resolve_left (h after rfl e hmem hlt)
  · intro h after hafter e he hlt hbelow
    obtain rfl := Option.mem_def.mp hafter
    have hscan : e ∈ objects.filter fun e => Scanned pre (some after) e.1 :=
      List.mem_filter.mpr ⟨he, decide_eq_true ⟨hlt, Or.inl hbelow⟩⟩
    obtain ⟨first, rest, hfirst⟩ := List.exists_cons_of_ne_nil (List.ne_nil_of_mem hscan)
    have hpair := hsorted.filter fun e => Scanned pre (some after) e.1
    rw [hfirst, List.pairwise_cons] at hpair
    rw [hfirst] at h hscan
    obtain ⟨n, rfl⟩ := Nat.exists_eq_succ_of_ne_zero hlimit.ne'
    -- the first object scanned is not above `e`, which is below the prefix
    have hle : first.1 ≤ e.1 := by
      rcases List.mem_cons.mp hscan with rfl | hmem
      · exact le_refl _
      · exact (hpair.1 e hmem).le
    have hpre := h first (by simp)
    exact not_lt.mpr ((prefix_le hpre).trans hle) hbelow

lemma list_eq_listable (hheads : HoldsHeads store bucket)
    (hbelow : NoneBelow (objectsOf store bucket) pre startAfter) (limit : ℕ) :
    store.engine.list bucket pre startAfter limit
      = .ok ((listable (objectsOf store bucket) pre startAfter).take limit) := by
  rw [list_eq hheads, listable_eq_filter_scanned]
  rcases Nat.eq_zero_or_pos limit with rfl | hpos
  · simp
  · have hall := (noneBelow_iff (pairwise_objectsOf store bucket) hpos).mp hbelow
    rw [take_filter_eq_iff.mpr fun e he => decide_eq_true (hall e he)]

/-- Asking after the last key of a page leaves what the page left out. -/
lemma listable_last (hsorted : objects.Pairwise fun a b => a.1 < b.1) {limit : ℕ}
    {last : Bytes × ObjectHead}
    (hlast : ((listable objects pre startAfter).take limit).getLast? = some last) :
    listable objects pre (some last.1) = (listable objects pre startAfter).drop limit
      ∧ pre <+: last.1 := by
  obtain ⟨hmem, hafter⟩ := List.mem_filter.mp (List.mem_of_mem_take (List.mem_of_getLast? hlast))
  refine ⟨?_, (mem_under.mp hmem).2⟩
  have hpair : (listable objects pre startAfter).Pairwise fun a b => a.1 < b.1 :=
    (hsorted.filter _).filter _
  rw [← OrdMap.filter_lt_eq_drop hpair hlast, listable, listable, List.filter_filter]
  refine List.filter_congr fun e _ => ?_
  have hkept : last.1 < e.1 → ∀ after ∈ startAfter, after < e.1 :=
    fun hlt after ha => (of_decide_eq_true hafter after ha).trans hlt
  by_cases hlt : last.1 < e.1
  · simpa [hlt] using hkept hlt
  · simp [hlt]

lemma listAll_eq (hheads : HoldsHeads store bucket) {limit : ℕ} (hlimit : 0 < limit) (n : ℕ)
    (hbelow : NoneBelow (objectsOf store bucket) pre startAfter)
    (hn : (listable (objectsOf store bucket) pre startAfter).length < n) :
    Engine.listAll store.engine bucket pre limit n startAfter
      = .ok (some (listable (objectsOf store bucket) pre startAfter)) := by
  induction n generalizing startAfter with
  | zero => omega
  | succ n ih =>
    rw [Engine.listAll, list_eq_listable hheads hbelow]
    cases hlast : ((listable (objectsOf store bucket) pre startAfter).take limit).getLast? with
    | none =>
      rw [List.getLast?_eq_none_iff, List.take_eq_nil_iff] at hlast
      simp [hlast.resolve_left hlimit.ne']
    | some last =>
      obtain ⟨hdrop, hpre⟩ := listable_last (pairwise_objectsOf store bucket) hlast
      have hne : listable (objectsOf store bucket) pre startAfter ≠ [] := by
        intro hnil
        simp [hnil] at hlast
      have hpos := List.length_pos_iff.mpr hne
      have hnext : NoneBelow (objectsOf store bucket) pre (some last.1) := by
        intro after hafter e _ hlt hbelow
        obtain rfl := Option.mem_some_iff.mp hafter
        exact not_lt.mpr ((prefix_le hpre).trans hlt.le) hbelow
      simp only [hlast]
      rw [ih hnext (by rw [hdrop, List.length_drop]; omega), hdrop]
      simp [Except.map]

end StartAfter

/-- **A listing returns the first objects under the prefix after `start_after`, and its pages every
one of them once, exactly when the bucket has no object between `start_after` and the prefix.** -/
theorem list_exact_iff {store : MetaStore} {bucket : BucketId} (hheads : HoldsHeads store bucket)
    (pre : Bytes) (startAfter : Option Bytes) (limit : ℕ) :
    (store.engine.list bucket pre startAfter limit
          = .ok ((listable (objectsOf store bucket) pre startAfter).take limit)
        ∧ (0 < limit → ∃ n, Engine.listAll store.engine bucket pre limit n startAfter
          = .ok (some (listable (objectsOf store bucket) pre startAfter))))
      ↔ limit = 0 ∨ NoneBelow (objectsOf store bucket) pre startAfter := by
  constructor
  · rintro ⟨hpage, -⟩
    refine (Nat.eq_zero_or_pos limit).imp_right fun hpos => ?_
    rw [list_eq hheads, Except.ok.injEq, eq_comm, listable_eq_filter_scanned, take_filter_eq_iff]
      at hpage
    exact (noneBelow_iff (pairwise_objectsOf store bucket) hpos).mpr
      fun e he => of_decide_eq_true (hpage e he)
  · rintro (rfl | hbelow)
    · simp [list_eq hheads]
    · exact ⟨list_eq_listable hheads hbelow limit, fun hpos =>
        ⟨_, listAll_eq hheads hpos _ hbelow (Nat.lt_succ_self _)⟩⟩

/-- Keys `b`, `c/x` and `c/y`, listed under `c/` from the start. -/
theorem list_exact_demo :
    HoldsHeads (bucketOf [[98], [99, 47, 120], [99, 47, 121]]) 1
      ∧ (bucketOf [[98], [99, 47, 120], [99, 47, 121]]).engine.list 1 [99, 47] none 1
        = .ok [([99, 47, 120], demoHead)] := by
  have hheads : HoldsHeads (bucketOf [[98], [99, 47, 120], [99, 47, 121]]) 1 := by decide +kernel
  refine ⟨hheads, ((list_exact_iff hheads [99, 47] none 1).mpr (Or.inr ?_)).1.trans ?_⟩
  · decide +kernel
  · decide +kernel

/-- The same keys after `a`: the page begins with `b`, which has not the prefix. -/
theorem key_below_prefix_listed :
    (bucketOf [[98], [99, 47, 120], [99, 47, 121]]).engine.list 1 [99, 47] (some [97]) 2
        = .ok [([98], demoHead), ([99, 47, 120], demoHead)]
      ∧ listable (objectsOf (bucketOf [[98], [99, 47, 120], [99, 47, 121]]) 1) [99, 47] (some [97])
        = [([99, 47, 120], demoHead), ([99, 47, 121], demoHead)] := by
  decide +kernel

end Epoch.Gateway
