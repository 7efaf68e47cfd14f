import Mathlib

/-!
# Cutting a list into pieces of bounded length

`chunks n l` is `slice::chunks`: pieces of exactly `n` elements and a shorter last one, none of
them empty.  Joining the pieces gives the list back (`flatten_chunks`), and their number is
bounded by any `c` with `l.length ≤ n * c` (`length_chunks_le_of_le_mul`).  Pieces of length `n`
are cut out of their concatenation (`chunks_flatten`).
-/

namespace Epoch

variable {α : Type*}

def chunksAux (n : ℕ) : ℕ → List α → List (List α)
  | 0, _ => []
  | _ + 1, [] => []
  | fuel + 1, a :: l => (a :: l).take n :: chunksAux n fuel ((a :: l).drop n)

def chunks (n : ℕ) (l : List α) : List (List α) := chunksAux n l.length l

@[simp] lemma chunks_nil (n : ℕ) : chunks n ([] : List α) = [] := rfl

lemma flatten_chunksAux {n : ℕ} (hn : 0 < n) (fuel : ℕ) (l : List α) (h : l.length ≤ fuel) :
    (chunksAux n fuel l).flatten = l := by
  induction fuel generalizing l with
  | zero =>
    have : l = [] := List.length_eq_zero_iff.mp (by omega)
    subst this; rfl
  | succ fuel ih =>
    cases l with
    | nil => rfl
    | cons a l =>
      have hlen : ((a :: l).drop n).length ≤ fuel := by
        rw [List.length_drop, List.length_cons]
        rw [List.length_cons] at h
        omega
      rw [chunksAux, List.flatten_cons, ih _ hlen, List.take_append_drop]

theorem flatten_chunks {n : ℕ} (hn : 0 < n) (l : List α) : (chunks n l).flatten = l :=
  flatten_chunksAux hn _ l le_rfl

lemma length_chunksAux_le {n : ℕ} (fuel : ℕ) (l : List α) (c : ℕ)
    (h : l.length ≤ n * c) : (chunksAux n fuel l).length ≤ c := by
  induction fuel generalizing l c with
  | zero => simp [chunksAux]
  | succ fuel ih =>
    cases l with
    | nil => simp [chunksAux]
    | cons a l =>
      cases c with
      | zero => simp at h
      | succ c =>
        have hdrop : ((a :: l).drop n).length ≤ n * c := by
          rw [List.length_drop]
          rw [Nat.mul_succ] at h
          omega
        rw [chunksAux, List.length_cons]
        exact Nat.succ_le_succ (ih _ c hdrop)

theorem length_chunks_le_of_le_mul {n : ℕ} {l : List α} {c : ℕ}
    (h : l.length ≤ n * c) : (chunks n l).length ≤ c := length_chunksAux_le _ l c h

lemma length_chunks_le {n : ℕ} (hn : 0 < n) (l : List α) : (chunks n l).length ≤ l.length :=
  length_chunks_le_of_le_mul (Nat.le_mul_of_pos_left _ hn)

lemma chunksAux_flatten {n : ℕ} (hn : 0 < n) {pieces : List (List α)}
    (h : ∀ p ∈ pieces, p.length = n) (fuel : ℕ) (hfuel : pieces.flatten.length ≤ fuel) :
    chunksAux n fuel pieces.flatten = pieces := by
  induction pieces generalizing fuel with
  | nil => cases fuel <;> rfl
  | cons p pieces ih =>
    have hp : p.length = n := h p List.mem_cons_self
    obtain ⟨a, l, rfl⟩ := List.exists_cons_of_length_pos (l := p) (by omega)
    rw [List.flatten_cons, List.length_append] at hfuel
    obtain ⟨fuel, rfl⟩ := Nat.exists_eq_add_of_le' (show 1 ≤ fuel by omega)
    rw [List.flatten_cons, List.cons_append, chunksAux, ← List.cons_append, ← hp,
      List.take_left, List.drop_left, hp,
      ih (fun q hq => h q (List.mem_cons_of_mem _ hq)) fuel (by omega)]

/-- Pieces of one length are cut out of their concatenation. -/
theorem chunks_flatten {n : ℕ} (hn : 0 < n) {pieces : List (List α)}
    (h : ∀ p ∈ pieces, p.length = n) : chunks n pieces.flatten = pieces :=
  chunksAux_flatten hn h _ le_rfl

end Epoch
