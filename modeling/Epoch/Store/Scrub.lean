import Epoch.Store.ExtentMeta

/-!
# The scrub rotation (`epoch-node/src/roles/maintenance.rs`)

A sweep scrubs the next `budget` extents of the sorted list and carries a position to the next sweep.
The position is an index into a list that changes between sweeps: when an extent before the cursor
goes, those behind it move up and one of them is skipped.  While an extent that is still ahead stays
ahead, and the cursor stays within the list, the rotation reaches it (`picks`).
-/

namespace Epoch

/-- `cycle().skip(start).take(take)` ends in the second round of the list. -/
def scrubTargets (extents : List ExtentId) (cursor budget : ℕ) : List ExtentId × ℕ :=
  if extents = [] ∨ budget = 0 then ([], 0)
  else
    let start := cursor % extents.length
    let take := min budget extents.length
    (((extents ++ extents).drop start).take take, (start + take) % extents.length)

/-- What the sweeps of the daemon scrub, over the lists they find. -/
def sweeps (budget : ℕ) : ℕ → List (List ExtentId) → List (List ExtentId)
  | _, [] => []
  | cursor, extents :: rest =>
    (scrubTargets extents cursor budget).1 :: sweeps budget (scrubTargets extents cursor budget).2 rest

/-- Between the sweep over `last` and each later one, an extent at or behind the cursor stays there,
and the list is not cut below the cursor (or the cursor then starts before the extent). -/
def Steady (budget : ℕ) (x : ExtentId) : ℕ → List ExtentId → List (List ExtentId) → Prop
  | _, _, [] => True
  | cursor, last, extents :: rest =>
    ((cursor ≤ last.idxOf x → cursor ≤ extents.idxOf x)
        ∧ (cursor < extents.length ∨ cursor % extents.length ≤ extents.idxOf x))
      ∧ Steady budget x (scrubTargets extents cursor budget).2 extents rest

section Rotation

variable {extents last : List ExtentId} {rest : List (List ExtentId)} {x : ExtentId}
  {cursor budget L : ℕ}

lemma mem_take_drop {l : List ExtentId} {i s t : ℕ} (h : l[i]? = some x) (hs : s ≤ i)
    (ht : i < s + t) : x ∈ (l.drop s).take t := by
  refine List.mem_iff_getElem?.mpr ⟨i - s, ?_⟩
  rw [List.getElem?_take_of_lt (by omega), List.getElem?_drop, Nat.add_sub_cancel' hs, h]

/-- A sweep that misses an extent and starts at or before it ends before it; one that starts behind it
ends further behind, or wraps and ends before it. -/
lemma scrub_step (hbudget : 0 < budget) (hx : x ∈ extents)
    (hmiss : x ∉ (scrubTargets extents cursor budget).1) :
    let start := cursor % extents.length
    let next := (scrubTargets extents cursor budget).2
    next ≤ extents.idxOf x
        ∧ (next = start + budget ∨ extents.idxOf x < start ∧ next + extents.length = start + budget)
      ∨ extents.idxOf x < start ∧ next = start + budget ∧ next < extents.length := by
  have hne : ¬ (extents = [] ∨ budget = 0) := by
    rintro (rfl | h)
    · cases hx
    · omega
  have hi := List.idxOf_lt_length_of_mem hx
  have hget : extents[extents.idxOf x]? = some x := List.getElem?_idxOf hx
  have hstart := Nat.mod_lt cursor (Nat.zero_lt_of_lt hi)
  simp only [scrubTargets, if_neg hne] at hmiss ⊢
  generalize cursor % extents.length = start at hmiss hstart ⊢
  -- the extent lies in the first round of the list and in the second
  have hfirst : start ≤ extents.idxOf x → start + min budget extents.length ≤ extents.idxOf x := by
    intro hle
    refine not_lt.mp fun hlt => hmiss (mem_take_drop ?_ hle hlt)
    rw [List.getElem?_append_left hi, hget]
  have hsecond : start + min budget extents.length ≤ extents.length + extents.idxOf x := by
    refine not_lt.mp fun hlt => hmiss (mem_take_drop (i := extents.length + extents.idxOf x) ?_
      (by omega) hlt)
    rw [List.getElem?_append_right (by omega), Nat.add_sub_cancel_left, hget]
  by_cases hwrap : start + min budget extents.length < extents.length
  · rw [Nat.mod_eq_of_lt hwrap]
    omega
  · rw [Nat.mod_eq_sub_mod (not_lt.mp hwrap), Nat.mod_eq_of_lt (by omega)]
    omega

/-- One pass over the list reaches an extent that is ahead, two passes one that is behind. -/
lemma picks (hbudget : 0 < budget) (hcursor : cursor < L)
    (hrest : ∀ extents ∈ rest, x ∈ extents ∧ extents.length ≤ L)
    (hsteady : Steady budget x cursor last rest)
    (hlong : (if cursor ≤ last.idxOf x then L else L + L) ≤ cursor + rest.length * budget) :
    ∃ picked ∈ sweeps budget cursor rest, x ∈ picked := by
  induction rest generalizing cursor last with
  | nil =>
    rw [List.length_nil] at hlong
    split_ifs at hlong <;> omega
  | cons extents rest ih =>
    rw [sweeps]
    by_cases hpick : x ∈ (scrubTargets extents cursor budget).1
    · exact ⟨_, List.mem_cons_self, hpick⟩
    · obtain ⟨hx, hlen⟩ := hrest extents List.mem_cons_self
      have hi := List.idxOf_lt_length_of_mem hx
      obtain ⟨⟨hahead, hin⟩, hsteady⟩ := hsteady
      have hstep := scrub_step hbudget hx hpick
      have hmod := Nat.mod_eq_of_lt (a := cursor) (b := extents.length)
      rw [List.length_cons, Nat.succ_mul] at hlong
      obtain ⟨picked, hmem, hpicked⟩ := ih (by omega)
        (fun e he => hrest e (List.mem_cons_of_mem _ he)) hsteady (by split_ifs at hlong ⊢ <;> omega)
      exact ⟨picked, List.mem_cons_of_mem _ hmem, hpicked⟩

end Rotation

/-- **In steady sweeps every extent that stays is scrubbed**, at least once in `2 * ⌈L / budget⌉ + 1`
sweeps over lists of at most `L` extents, from wherever the cursor stands. -/
theorem scrub_reaches {budget L cursor : ℕ} {x : ExtentId} {extents : List ExtentId}
    {rest : List (List ExtentId)} (hbudget : 0 < budget)
    (hlength : (extents :: rest).length = 2 * ((L + budget - 1) / budget) + 1)
    (hstays : ∀ e ∈ extents :: rest, x ∈ e ∧ e.length ≤ L)
    (hsteady : Steady budget x (scrubTargets extents cursor budget).2 extents rest) :
    ∃ picked ∈ sweeps budget cursor (extents :: rest), x ∈ picked := by
  rw [sweeps]
  by_cases hpick : x ∈ (scrubTargets extents cursor budget).1
  · exact ⟨_, List.mem_cons_self, hpick⟩
  · obtain ⟨hx, hlen⟩ := hstays extents List.mem_cons_self
    have hi := List.idxOf_lt_length_of_mem hx
    have hstep := scrub_step hbudget hx hpick
    have hdiv := Nat.lt_div_mul_add (a := L + budget - 1) hbudget
    rw [List.length_cons, Nat.add_right_cancel_iff] at hlength
    obtain ⟨picked, hmem, hpicked⟩ := picks hbudget (by omega)
      (fun e he => hstays e (List.mem_cons_of_mem _ he)) hsteady (by
        rw [hlength, Nat.mul_assoc]
        split_ifs <;> omega)
    exact ⟨picked, List.mem_cons_of_mem _ hmem, hpicked⟩

/-- The extent of shard `n`. -/
def extentOf (n : ShardId) : ExtentId := ⟨n, 0⟩

theorem scrub_reaches_demo :
    ∃ picked ∈ sweeps 3 1 [[extentOf 1, extentOf 5], [extentOf 1, extentOf 5, extentOf 9],
      [extentOf 1, extentOf 5]], extentOf 5 ∈ picked :=
  scrub_reaches (L := 3) (by decide) (by decide) (by decide)
    ⟨⟨by decide, by decide⟩, ⟨by decide, by decide⟩, trivial⟩

end Epoch
