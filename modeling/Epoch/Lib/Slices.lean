import Mathlib

/-!
# Cutting by offset

The pieces of a list at multiples of a length, the pieces of a concatenation at the offsets of its
parts, and rounding up to a multiple.

* `flatMap_pieces`: the first `k` pieces of length `n` are the first `k * n` elements;
* `slice_flatMap`: a part of a concatenation is what stands behind the parts before it.
-/

namespace Epoch

variable {α : Type*}

/-- `usize::next_multiple_of`. -/
def nextMultipleOf (n k : ℕ) : ℕ := if n % k = 0 then n else n + (k - n % k)

/-- The next multiple is less than one unit away. -/
lemma nextMultipleOf_spec (n : ℕ) {k : ℕ} (hk : 0 < k) :
    n ≤ nextMultipleOf n k ∧ nextMultipleOf n k < n + k ∧ k ∣ nextMultipleOf n k := by
  have hmod := Nat.mod_lt n hk
  unfold nextMultipleOf
  split_ifs with h
  · exact ⟨le_rfl, by omega, Nat.dvd_of_mod_eq_zero h⟩
  · refine ⟨by omega, by omega, n / k + 1, ?_⟩
    have hdiv := Nat.div_add_mod n k
    rw [Nat.mul_add, Nat.mul_one]
    omega

/-- `slice::get` of a range. -/
def slice (l : List α) (start len : ℕ) : Option (List α) :=
  if start + len ≤ l.length then some ((l.drop start).take len) else none

/-- The first pieces of a list. -/
lemma flatMap_pieces (l : List α) (n k : ℕ) :
    ((List.range k).flatMap fun i => (l.drop (i * n)).take n) = l.take (k * n) := by
  induction k with
  | zero => simp
  | succ k ih =>
    rw [List.range_succ, List.flatMap_append, ih, List.flatMap_singleton, Nat.succ_mul,
      List.take_add]

lemma length_flatMap_range_mono (f : ℕ → List α) {s k : ℕ} (h : s ≤ k) :
    ((List.range s).flatMap f).length ≤ ((List.range k).flatMap f).length := by
  obtain ⟨d, rfl⟩ := Nat.exists_eq_add_of_le h
  rw [List.range_add, List.flatMap_append, List.length_append]
  exact Nat.le_add_right _ _

/-- A part of a concatenation stands behind the parts before it. -/
lemma slice_flatMap (f : ℕ → List α) {s k : ℕ} (h : s < k) :
    slice ((List.range k).flatMap f) ((List.range s).flatMap f).length (f s).length
      = some (f s) := by
  have hsucc : (List.range (s + 1)).flatMap f = (List.range s).flatMap f ++ f s := by
    rw [List.range_succ, List.flatMap_append, List.flatMap_singleton]
  have hle := length_flatMap_range_mono f (show s + 1 ≤ k from h)
  obtain ⟨d, rfl⟩ := Nat.exists_eq_add_of_le (show s + 1 ≤ k from h)
  rw [hsucc, List.length_append] at hle
  rw [slice, if_pos hle, List.range_add, List.flatMap_append, hsucc, List.append_assoc,
    List.drop_left, List.take_left]

/-- Parts of one length. -/
lemma length_flatMap_const {f : ℕ → List α} {n k : ℕ} (h : ∀ s < k, (f s).length = n) :
    ((List.range k).flatMap f).length = k * n := by
  induction k with
  | zero => simp
  | succ k ih =>
    rw [List.range_succ, List.flatMap_append, List.flatMap_singleton, List.length_append,
      ih fun s hs => h s (hs.trans (Nat.lt_succ_self k)), h k (Nat.lt_succ_self k), Nat.succ_mul]

/-- The pieces of a list, each filled up to the length, start with the list. -/
lemma take_flatMap_filled {l : List α} (fill : α) {n k : ℕ} (h : l.length ≤ k * n) :
    ((List.range k).flatMap fun i =>
      let part := (l.drop (i * n)).take n
      part ++ List.replicate (n - part.length) fill).take l.length = l := by
  -- the pieces of the list with the filling behind it
  have hpiece : ∀ i, i < k → (let part := (l.drop (i * n)).take n
      part ++ List.replicate (n - part.length) fill)
        = ((l ++ List.replicate (k * n - l.length) fill).drop (i * n)).take n := by
    intro i hi
    have hend : (i + 1) * n ≤ k * n := Nat.mul_le_mul_right n hi
    rw [Nat.succ_mul] at hend
    rw [List.drop_append, List.take_append, List.drop_replicate, List.take_replicate]
    simp only [List.length_take, List.length_drop]
    congr 2
    omega
  have heq : ((List.range k).flatMap fun i =>
      let part := (l.drop (i * n)).take n
      part ++ List.replicate (n - part.length) fill)
        = (l ++ List.replicate (k * n - l.length) fill).take (k * n) := by
    rw [← flatMap_pieces]
    exact List.flatMap_congr fun i hi => hpiece i (List.mem_range.mp hi)
  rw [heq, List.take_take, min_eq_left h, List.take_left]

end Epoch
