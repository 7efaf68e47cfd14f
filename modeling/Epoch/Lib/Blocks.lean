import Mathlib

/-!
# Runs of equal labels

`blocks` keeps one label of each run of equal ones.  It is monotone in both directions: the labels of
a head of the list are a head of its labels, and those of a tail a tail, even when a run is cut in
two.  When the runs come in order there is one run for each label (`pairwise_blocks`), and a tail is
then determined by its first label, or by its labels (`eq_of_suffix_of_head`,
`eq_of_suffix_of_mem`).
-/

namespace Epoch

section Blocks

variable {β : Type*} [DecidableEq β]

def blocks (l : List β) : List β := l.destutter (· ≠ ·)

@[simp] lemma blocks_nil : blocks ([] : List β) = [] := rfl

@[simp] lemma blocks_eq_nil {l : List β} : blocks l = [] ↔ l = [] := List.destutter_eq_nil _

lemma blocks_cons_cons (a b : β) (l : List β) :
    blocks (a :: b :: l) = if a = b then blocks (b :: l) else a :: blocks (b :: l) := by
  rw [blocks, blocks, List.destutter_cons_cons]
  by_cases h : a = b
  · subst h
    rw [if_neg (by simp), if_pos rfl, List.destutter_cons']
  · rw [if_pos h, if_neg h, List.destutter_cons']

lemma mem_blocks {a : β} {l : List β} : a ∈ blocks l ↔ a ∈ l := by
  induction l with
  | nil => rfl
  | cons b l ih =>
    cases l with
    | nil => rfl
    | cons c l =>
      rw [blocks_cons_cons]
      split_ifs with h
      · subst h
        rw [ih]
        exact ⟨List.mem_cons_of_mem _, fun hmem => by simpa using hmem⟩
      · rw [List.mem_cons, ih, List.mem_cons (b := b)]

lemma blocks_suffix_cons (a : β) (l : List β) : blocks l <:+ blocks (a :: l) := by
  cases l with
  | nil => exact List.nil_suffix
  | cons b l =>
    rw [blocks_cons_cons]
    split_ifs
    · exact List.suffix_refl _
    · exact List.suffix_cons _ _

lemma blocks_suffix {s l : List β} (h : s <:+ l) : blocks s <:+ blocks l := by
  obtain ⟨t, rfl⟩ := h
  induction t with
  | nil => exact List.suffix_refl _
  | cons a t ih => exact ih.trans (blocks_suffix_cons a (t ++ s))

lemma blocks_concat (l : List β) (a : β) :
    blocks (l ++ [a]) = if l.getLast? = some a then blocks l else blocks l ++ [a] := by
  induction l with
  | nil => rfl
  | cons b l ih =>
    cases l with
    | nil =>
      rw [List.singleton_append, blocks_cons_cons]
      simp only [List.getLast?_singleton, Option.some.injEq]
      split_ifs with h
      · subst h
        rfl
      · rfl
    | cons c l =>
      rw [List.cons_append, List.cons_append, blocks_cons_cons, blocks_cons_cons,
        ← List.cons_append, ih, List.getLast?_cons_cons]
      split_ifs
      · rfl
      · rfl
      · rfl
      · rfl

lemma blocks_prefix {s l : List β} (h : s <+: l) : blocks s <+: blocks l := by
  obtain ⟨t, rfl⟩ := h
  induction t generalizing s with
  | nil => rw [List.append_nil]
  | cons a t ih =>
    have hstep : blocks s <+: blocks (s ++ [a]) := by
      rw [blocks_concat]
      split_ifs
      · exact List.prefix_refl _
      · exact List.prefix_append _ _
    rw [List.append_cons]
    exact hstep.trans ih

lemma getLast?_blocks (l : List β) : (blocks l).getLast? = l.getLast? := by
  induction l with
  | nil => rfl
  | cons a l ih =>
    cases l with
    | nil => rfl
    | cons b l =>
      rw [blocks_cons_cons, List.getLast?_cons_cons, ← ih]
      split_ifs
      · rfl
      · obtain ⟨c, cs, hcs⟩ := List.exists_cons_of_ne_nil
          (show blocks (b :: l) ≠ [] from fun h => List.cons_ne_nil _ _ (blocks_eq_nil.mp h))
        rw [hcs, List.getLast?_cons_cons]

/-- Labels that come in order come once. -/
lemma pairwise_blocks {r : β → β → Prop} (hasymm : ∀ a b, r a b → ¬ r b a) {l : List β}
    (h : l.Pairwise fun a b => a = b ∨ r a b) : (blocks l).Pairwise r := by
  induction l with
  | nil => exact List.Pairwise.nil
  | cons a l ih =>
    rw [List.pairwise_cons] at h
    cases l with
    | nil => exact List.pairwise_singleton _ _
    | cons b l =>
      rw [blocks_cons_cons]
      split_ifs with hab
      · exact ih h.2
      · refine List.pairwise_cons.mpr ⟨?_, ih h.2⟩
        intro c hc
        rcases h.1 c (mem_blocks.mp hc) with rfl | hac
        · -- the label comes again behind `b`, so the two are in both orders
          have hb := (h.1 b List.mem_cons_self).resolve_left hab
          rcases List.mem_cons.mp (mem_blocks.mp hc) with hba | hmem
          · exact absurd hba hab
          · have hba := (List.pairwise_cons.mp h.2).1 a hmem
            exact absurd (hba.resolve_left (Ne.symm hab)) (hasymm _ _ hb)
        · exact hac

lemma map_blocks {γ : Type*} [DecidableEq γ] {f : β → γ} {l : List β}
    (h : ∀ a ∈ l, ∀ b ∈ l, f a = f b → a = b) : blocks (l.map f) = (blocks l).map f := by
  refine (List.map_destutter fun a ha b hb => ?_).symm
  exact ⟨fun hab hf => hab (h a ha b hb hf), fun hab hf => hab (congrArg f hf)⟩

end Blocks

section Suffix

variable {β : Type*} {l s t : List β}

lemma eq_of_suffix_of_head (hl : l.Nodup) (hs : s <:+ l) (ht : t <:+ l)
    (h : s.head? = t.head?) : s = t := by
  have key : ∀ {s t : List β}, t <:+ l → s <:+ t → s.head? = t.head? → s = t := by
    rintro s t ht ⟨u, rfl⟩ hhead
    cases u with
    | nil => rfl
    | cons a u =>
      cases s with
      | nil => simp at hhead
      | cons b s =>
        have hab : b = a := by simpa using hhead
        subst hab
        have hnodup := hl.sublist ht.sublist
        simp at hnodup
  rcases List.suffix_or_suffix_of_suffix hs ht with hst | hts
  · exact key ht hst h
  · exact (key hs hts h.symm).symm

lemma eq_of_suffix_of_mem (hl : l.Nodup) (hs : s <:+ l) (ht : t <:+ l)
    (h : ∀ a, a ∈ s ↔ a ∈ t) : s = t := by
  have key : ∀ {s t : List β}, t <:+ l → s <:+ t → (∀ a, a ∈ t → a ∈ s) → s = t := by
    rintro s t ht ⟨u, rfl⟩ hmem
    cases u with
    | nil => rfl
    | cons a u =>
      have hnodup := hl.sublist ht.sublist
      have ha := hmem a (by simp)
      simp [ha] at hnodup
  rcases List.suffix_or_suffix_of_suffix hs ht with hst | hts
  · exact key ht hst fun a ha => (h a).mpr ha
  · exact (key hs hts fun a ha => (h a).mp ha).symm

end Suffix

end Epoch
