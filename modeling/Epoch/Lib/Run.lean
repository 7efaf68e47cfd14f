import Mathlib

/-!
# Runs of a labelled system

A system here is a step function taking a state and a label; a run is a list of labels, executed
from left to right.  `Along step G s l` says that every step of the run meets the guard `G`, which
may read the state it starts from.  `Along.invariant` packages the induction every safety
argument makes: a property that guarded steps preserve holds at the end of every guarded run, and
as prefixes of guarded runs are guarded (`along_append`), in every state on the way.
-/

namespace Epoch

variable {σ α : Type*}

/-- The state after a run. -/
def run (step : σ → α → σ) (s : σ) (l : List α) : σ := l.foldl step s

/-- Every step of the run from `s` meets the guard. -/
def Along (step : σ → α → σ) (G : σ → α → Prop) : σ → List α → Prop
  | _, [] => True
  | s, a :: l => G s a ∧ Along step G (step s a) l

variable {step : σ → α → σ} {G H : σ → α → Prop}

instance Along.decidable [∀ s a, Decidable (G s a)] :
    (s : σ) → (l : List α) → Decidable (Along step G s l)
  | _, [] => inferInstanceAs (Decidable True)
  | s, a :: l =>
    have := Along.decidable (step s a) l
    inferInstanceAs (Decidable (G s a ∧ Along step G (step s a) l))

@[simp] lemma run_nil (s : σ) : run step s [] = s := rfl

@[simp] lemma run_cons (s : σ) (a : α) (l : List α) :
    run step s (a :: l) = run step (step s a) l := rfl

lemma run_append (s : σ) (l l' : List α) :
    run step s (l ++ l') = run step (run step s l) l' := List.foldl_append

lemma along_append (s : σ) (l l' : List α) :
    Along step G s (l ++ l') ↔ Along step G s l ∧ Along step G (run step s l) l' := by
  induction l generalizing s with
  | nil => simp [Along]
  | cons a l ih => simp [Along, ih, and_assoc]

/-- Guarded steps preserve `P`, so guarded runs do. -/
theorem Along.invariant {P : σ → Prop} (hstep : ∀ s a, P s → G s a → P (step s a)) {s : σ}
    {l : List α} (hs : P s) (h : Along step G s l) : P (run step s l) := by
  induction l generalizing s with
  | nil => exact hs
  | cons a l ih => exact ih (hstep s a hs h.1) h.2

/-- What guarded steps from states with an invariant satisfy holds of every step of a guarded run. -/
theorem Along.of_invariant {P : σ → Prop} (hstep : ∀ s a, P s → G s a → P (step s a))
    (hG : ∀ s a, P s → G s a → H s a) {s : σ} {l : List α} (hs : P s) (h : Along step G s l) :
    Along step H s l := by
  induction l generalizing s with
  | nil => trivial
  | cons a l ih => exact ⟨hG s a hs h.1, ih (hstep s a hs h.1) h.2⟩

/-- The guard of a step in the middle of a guarded run. -/
lemma Along.middle {s : σ} {a : α} {l l' : List α} (h : Along step G s (l ++ a :: l')) :
    Along step G s l ∧ G (run step s l) a := by
  obtain ⟨hl, hal⟩ := (along_append s l (a :: l')).mp h
  exact ⟨hl, hal.1⟩

lemma Along.take {s : σ} {l : List α} (h : Along step G s l) (n : ℕ) :
    Along step G s (l.take n) := by
  rw [← List.take_append_drop n l, along_append] at h
  exact h.1

/-- A guard that reads only labels. -/
lemma along_of_forall {l : List α} (h : ∀ a ∈ l, ∀ s, G s a) (s : σ) : Along step G s l := by
  induction l generalizing s with
  | nil => trivial
  | cons a l ih => exact ⟨h a List.mem_cons_self s, ih (fun b hb => h b (List.mem_cons_of_mem a hb)) _⟩

/-- What holds of every label can be added to the guard. -/
lemma Along.and_forall {P : α → Prop} {s : σ} {l : List α} (h : Along step G s l)
    (hP : ∀ a ∈ l, P a) : Along step (fun s a => P a ∧ G s a) s l := by
  induction l generalizing s with
  | nil => trivial
  | cons a l ih =>
    exact ⟨⟨hP a List.mem_cons_self, h.1⟩,
      ih h.2 fun b hb => hP b (List.mem_cons_of_mem a hb)⟩

lemma Along.and {s : σ} {l : List α} (h : Along step G s l) (h' : Along step H s l) :
    Along step (fun s a => G s a ∧ H s a) s l := by
  induction l generalizing s with
  | nil => trivial
  | cons a l ih => exact ⟨⟨h.1, h'.1⟩, ih h.2 h'.2⟩

lemma Along.mono (hGH : ∀ s a, G s a → H s a) {s : σ} {l : List α} (h : Along step G s l) :
    Along step H s l := by
  induction l generalizing s with
  | nil => trivial
  | cons a l ih => exact ⟨hGH s a h.1, ih h.2⟩

/-- `P` holds at the start of the run and after every step of it. -/
def Throughout (step : σ → α → σ) (P : σ → Prop) : σ → List α → Prop
  | s, [] => P s
  | s, a :: l => P s ∧ Throughout step P (step s a) l

section Throughout

variable {P Q : σ → Prop}

instance Throughout.decidable [∀ s, Decidable (P s)] :
    (s : σ) → (l : List α) → Decidable (Throughout step P s l)
  | s, [] => inferInstanceAs (Decidable (P s))
  | s, a :: l =>
    have := Throughout.decidable (step s a) l
    inferInstanceAs (Decidable (P s ∧ Throughout step P (step s a) l))

lemma Throughout.head {s : σ} {l : List α} (h : Throughout step P s l) : P s := by
  cases l with
  | nil => exact h
  | cons a l => exact h.1

lemma Throughout.run_take {s : σ} {l : List α} (h : Throughout step P s l) (n : ℕ) :
    P (run step s (l.take n)) := by
  induction l generalizing s n with
  | nil =>
    rw [List.take_nil]
    exact h
  | cons a l ih =>
    cases n with
    | zero => exact h.1
    | succ n => exact ih h.2 n

lemma throughout_append {s : σ} {l l' : List α} :
    Throughout step P s (l ++ l')
      ↔ Throughout step P s l ∧ Throughout step P (run step s l) l' := by
  induction l generalizing s with
  | nil => exact ⟨fun h => ⟨h.head, h⟩, fun h => h.2⟩
  | cons a l ih =>
    exact ⟨fun h => ⟨⟨h.1, (ih.mp h.2).1⟩, (ih.mp h.2).2⟩, fun h => ⟨h.1.1, ih.mpr ⟨h.1.2, h.2⟩⟩⟩

lemma Throughout.mono (hPQ : ∀ s, P s → Q s) {s : σ} {l : List α} (h : Throughout step P s l) :
    Throughout step Q s l := by
  induction l generalizing s with
  | nil => exact hPQ s h
  | cons a l ih => exact ⟨hPQ s h.1, ih h.2⟩

/-- What every step of a kind preserves holds throughout a run of such steps. -/
theorem throughout_of_preserved {K : α → Prop} (hstep : ∀ s a, P s → K a → P (step s a)) {s : σ}
    {l : List α} (hs : P s) (hl : ∀ a ∈ l, K a) : Throughout step P s l := by
  induction l generalizing s with
  | nil => exact hs
  | cons a l ih =>
    exact ⟨hs, ih (hstep s a hs (hl a List.mem_cons_self))
      fun b hb => hl b (List.mem_cons_of_mem a hb)⟩

lemma Throughout.last {s : σ} {l : List α} (h : Throughout step P s l) : P (run step s l) := by
  have hlast := h.run_take l.length
  rwa [List.take_length] at hlast

end Throughout

end Epoch
