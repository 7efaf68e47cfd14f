import Mathlib

/-!
# Lists as tables and as pages

A table of calls or sessions is a list whose new entries go to the end: the first lemma says what
an entry of the longer list is.  A page is the first entries of a list; the last two say when
taking it commutes with choosing entries.
-/

namespace Epoch

variable {α : Type*} {l : List α} {i j : ℕ} {x y : α}

lemma getElem?_concat_eq_some :
    (l ++ [x])[j]? = some y ↔ l[j]? = some y ∨ (j = l.length ∧ x = y) := by
  rcases lt_trichotomy j l.length with h | h | h
  · rw [List.getElem?_append_left h]
    exact ⟨Or.inl, fun hy => hy.resolve_right fun hj => absurd hj.1 h.ne⟩
  · subst h
    simp
  · rw [List.getElem?_eq_none (by simp; omega), List.getElem?_eq_none h.le]
    simp [h.ne']

lemma filterMap_take_of_isSome {β : Type*} {f : α → Option β} (h : ∀ a ∈ l, (f a).isSome) (n : ℕ) :
    (l.take n).filterMap f = (l.filterMap f).take n := by
  induction l generalizing n with
  | nil => simp
  | cons a l ih =>
    obtain ⟨b, hb⟩ := Option.isSome_iff_exists.mp (h a List.mem_cons_self)
    cases n with
    | zero => simp
    | succ n =>
      rw [List.take_succ_cons, List.filterMap_cons_some hb, List.filterMap_cons_some hb,
        List.take_succ_cons, ih fun x hx => h x (List.mem_cons_of_mem _ hx)]

lemma take_filter_eq_iff {P : α → Bool} {n : ℕ} :
    (l.filter P).take n = l.take n ↔ ∀ a ∈ l.take n, P a = true := by
  induction l generalizing n with
  | nil => simp
  | cons a l ih =>
    cases n with
    | zero => simp
    | succ n =>
      by_cases ha : P a = true
      · rw [List.filter_cons_of_pos ha, List.take_succ_cons, List.take_succ_cons]
        simp [ih, ha]
      · rw [List.filter_cons_of_neg ha, List.take_succ_cons]
        refine iff_of_false ?_ fun hall => ha (hall a List.mem_cons_self)
        intro heq
        have hmem : a ∈ (l.filter P).take (n + 1) := by
          rw [heq]
          exact List.mem_cons_self
        exact ha (List.of_mem_filter (List.mem_of_mem_take hmem))

end Epoch
