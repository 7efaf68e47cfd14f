import Mathlib

/-!
# Greedy choice

`greedy R [] l` goes through `l` and keeps what is compatible with all it has kept.  Its result is
*stable*: its members are compatible, and what it leaves out is incompatible with an earlier member.
No other stable choice has fewer members (`length_greedy_le`), so stability says how far a greedy
choice gets without mentioning the loop.
-/

namespace Epoch

variable {α : Type*} (R : α → α → Prop)

def greedy [DecidableRel R] (kept : List α) : List α → List α
  | [] => kept
  | a :: rest => if ∀ b ∈ kept, R b a then greedy (kept ++ [a]) rest else greedy kept rest

/-- A compatible choice from a list, with an earlier member against everything it leaves out. -/
structure Stable (chosen l : List α) : Prop where
  subset : chosen ⊆ l
  compatible : chosen.Pairwise R
  left_out : ∀ before a after, l = before ++ a :: after →
    a ∈ chosen ∨ ∃ b ∈ chosen, b ∈ before ∧ ¬ R b a

variable {R} {kept chosen passed rest l : List α} {a : α}

lemma Stable.keep (h : Stable R kept passed) (ha : ∀ b ∈ kept, R b a) :
    Stable R (kept ++ [a]) (passed ++ [a]) := by
  refine ⟨?_, ?_, ?_⟩
  · exact List.append_subset.mpr ⟨List.subset_append_of_subset_left _ h.subset, by simp⟩
  · exact List.pairwise_append.mpr ⟨h.compatible, List.pairwise_singleton R a, by simpa using ha⟩
  · intro before c after hsplit
    rcases List.eq_nil_or_concat' after with rfl | ⟨after, d, rfl⟩
    · obtain ⟨-, hc⟩ := List.append_inj' hsplit rfl
      left
      simp [(List.cons.inj hc).1]
    · rw [← List.cons_append, ← List.append_assoc] at hsplit
      obtain ⟨hpassed, -⟩ := List.append_inj' hsplit rfl
      rcases h.left_out before c after hpassed with hmem | ⟨b, hb, hbefore, hnot⟩
      · exact Or.inl (List.mem_append_left _ hmem)
      · exact Or.inr ⟨b, List.mem_append_left _ hb, hbefore, hnot⟩

lemma Stable.skip (h : Stable R kept passed) (ha : ∃ b ∈ kept, ¬ R b a) :
    Stable R kept (passed ++ [a]) := by
  refine ⟨List.subset_append_of_subset_left _ h.subset, h.compatible, ?_⟩
  intro before c after hsplit
  rcases List.eq_nil_or_concat' after with rfl | ⟨after, d, rfl⟩
  · obtain ⟨hpassed, hc⟩ := List.append_inj' hsplit rfl
    obtain ⟨b, hb, hnot⟩ := ha
    rw [(List.cons.inj hc).1] at hnot
    exact Or.inr ⟨b, hb, hpassed ▸ h.subset hb, hnot⟩
  · rw [← List.cons_append, ← List.append_assoc] at hsplit
    obtain ⟨hpassed, -⟩ := List.append_inj' hsplit rfl
    exact h.left_out before c after hpassed

variable [DecidableRel R]

lemma Stable.greedy (h : Stable R kept passed) :
    Stable R (Epoch.greedy R kept rest) (passed ++ rest) := by
  induction rest generalizing kept passed with
  | nil => simpa [Epoch.greedy] using h
  | cons a rest ih =>
    rw [Epoch.greedy, List.append_cons passed]
    by_cases ha : ∀ b ∈ kept, R b a
    · rw [if_pos ha]
      exact ih (h.keep ha)
    · rw [if_neg ha]
      exact ih (h.skip (by simpa using ha))

theorem stable_greedy (l : List α) : Stable R (greedy R [] l) l :=
  (⟨by simp, List.Pairwise.nil, by simp⟩ : Stable R [] []).greedy

lemma greedy_prefix (R : α → α → Prop) [DecidableRel R] (kept rest : List α) :
    kept <+: greedy R kept rest := by
  induction rest generalizing kept with
  | nil => exact List.prefix_refl _
  | cons a rest ih =>
    rw [greedy]
    split_ifs
    · exact (List.prefix_append _ _).trans (ih _)
    · exact ih _

lemma stable_self (h : l.Pairwise R) : Stable R l l :=
  ⟨fun _ => id, h, fun before a after hl => Or.inl (by simp [hl])⟩

lemma Stable.cover (h : Stable R chosen l) (ha : a ∈ l) : a ∈ chosen ∨ ∃ b ∈ chosen, ¬ R b a := by
  obtain ⟨before, after, hsplit⟩ := List.append_of_mem ha
  exact (h.left_out before a after hsplit).imp_right fun ⟨b, hb, _, hnot⟩ => ⟨b, hb, hnot⟩

/-- One step of a loop that stops at `n` members. -/
lemma take_greedy_cons {n : ℕ} :
    (greedy R kept (a :: rest)).take n = if kept.length = n then kept
      else if ∀ b ∈ kept, R b a then (greedy R (kept ++ [a]) rest).take n
      else (greedy R kept rest).take n := by
  split_ifs with hfull ha
  · rw [← hfull, ← List.prefix_iff_eq_take.mp ( greedy_prefix R kept (a :: rest))]
  · rw [greedy, if_pos ha]
  · rw [greedy, if_neg ha]

/-- With members compatible when they differ in `f`, the values of `f` are those of the list. -/
lemma toFinset_greedy {β : Type*} [DecidableEq β] (f : α → β) (l : List α) :
    ((greedy (fun a b => f a ≠ f b) [] l).map f).toFinset = (l.map f).toFinset := by
  have h := stable_greedy (R := fun a b => f a ≠ f b) l
  ext x
  simp only [List.mem_toFinset, List.mem_map]
  constructor
  · rintro ⟨a, ha, rfl⟩
    exact ⟨a, h.subset ha, rfl⟩
  · rintro ⟨a, ha, rfl⟩
    rcases h.cover ha with hmem | ⟨b, hb, hnot⟩
    · exact ⟨a, hmem, rfl⟩
    · exact ⟨b, hb, not_not.mp hnot⟩

/-- On what has been passed the loop has chosen as any stable choice does. -/
lemma greedy_subset [Std.Symm R] (h : Stable R chosen l) (hl : l = passed ++ rest)
    (hkept : kept ⊆ passed) (hsame : ∀ b ∈ passed, b ∈ kept ↔ b ∈ chosen) :
    greedy R kept rest ⊆ chosen := by
  induction rest generalizing kept passed with
  | nil => exact fun b hb => (hsame b (hkept hb)).mp hb
  | cons a rest ih =>
    have hnext : l = (passed ++ [a]) ++ rest := by rw [hl, List.append_cons]
    rw [greedy]
    split_ifs with ha
    · have hmem : a ∈ chosen := by
        rcases h.left_out passed a rest hl with hmem | ⟨b, hb, hbefore, hnot⟩
        · exact hmem
        · exact absurd (ha b ((hsame b hbefore).mpr hb)) hnot
      refine ih hnext ?_ ?_
      · exact List.append_subset.mpr ⟨List.subset_append_of_subset_left _ hkept, by simp⟩
      · intro b hb
        rcases List.mem_append.mp hb with hb | hb
        · have hb' := hsame b hb
          by_cases hba : b = a
          · simp [hba, hmem]
          · simp [hb', hba]
        · simp [List.mem_singleton.mp hb, hmem]
    · refine ih hnext (List.subset_append_of_subset_left _ hkept) ?_
      intro b hb
      rcases List.mem_append.mp hb with hb | hb
      · exact hsame b hb
      obtain rfl := List.mem_singleton.mp hb
      push Not at ha
      obtain ⟨c, hc, hnot⟩ := ha
      have hchosen := (hsame c (hkept hc)).mp hc
      refine ⟨fun hb => (hsame b (hkept hb)).mp hb, fun hb => by_contra fun hnotkept => hnot ?_⟩
      exact h.compatible.forall hchosen hb fun heq => hnotkept (heq ▸ hc)

/-- A greedy choice has as few members as a stable choice can have. -/
theorem length_greedy_le [Std.Symm R] (hirrefl : ∀ a, ¬ R a a) (h : Stable R chosen l) :
    (greedy R [] l).length ≤ chosen.length := by
  have hnodup : (greedy R [] l).Nodup := by
    refine (stable_greedy l).compatible.imp ?_
    rintro a b hab rfl
    exact hirrefl a hab
  exact (hnodup.subperm (greedy_subset h (List.nil_append l).symm (by simp) (by simp))).length_le

end Epoch
