import Epoch.Gateway.List

/-!
# The rows of a listing

Rows come in the order of their keys, so the keys of a group are a run and the rows after a cursor
(`rowsAfter`) are a tail of all rows.  A key to resume after is right exactly when the rows after it
are those that were not returned, which `resumes_iff` says in terms of the keys alone.
-/

namespace Epoch.Gateway

variable {H : Type*}

def ListRow.name : ListRow H → Bytes
  | .Object e => e.1
  | .Prefix group => group

/-- A row without the entry of its object. -/
def ListRow.row : ListRow H → Row
  | .Object e => .Key e.1
  | .Prefix group => .CommonPrefix group

/-- The row of an entry under the prefix. -/
def listRow (pre delimiter : Bytes) (e : Bytes × H) : ListRow H :=
  match rowOf pre delimiter e.1 with
  | .Key _ => .Object e
  | .CommonPrefix group => .Prefix group

def under (objects : List (Bytes × H)) (pre : Bytes) : List (Bytes × H) :=
  objects.filter fun e => pre <+: e.1

/-- The entries after a cursor; an empty one stands before the first. -/
def after (objects : List (Bytes × H)) (pre cursor : Bytes) : List (Bytes × H) :=
  (under objects pre).filter fun e => cursor = [] ∨ cursor < e.1

/-- The claimed outcome of a listing: every object under the prefix that has no delimiter after it and
every common prefix once, in order, and nothing else. -/
structure Exact (objects : List (Bytes × H)) (pre delimiter : Bytes) (rows : List (ListRow H)) :
    Prop where
  sorted : rows.Pairwise fun a b => a.name < b.name
  complete : ∀ row, row ∈ rows ↔ ∃ e ∈ objects, pre <+: e.1 ∧ listRow pre delimiter e = row

section Rows

variable {pre delimiter : Bytes} {e e' : Bytes × H}

@[simp] lemma row_listRow (pre delimiter : Bytes) (e : Bytes × H) :
    (listRow pre delimiter e).row = rowOf pre delimiter e.1 := by
  unfold listRow
  cases h : rowOf pre delimiter e.1 with
  | Key k => rw [rowOf_eq_key h, ListRow.row]
  | CommonPrefix g => rfl

lemma name_listRow (pre delimiter : Bytes) (e : Bytes × H) :
    (listRow pre delimiter e).name = (rowOf pre delimiter e.1).name := by
  rw [← row_listRow]
  cases listRow pre delimiter e <;> rfl

lemma listRow_eq_object {x : Bytes × H} (h : listRow pre delimiter e = .Object x) : x = e := by
  unfold listRow at h
  split at h
  · exact (ListRow.Object.inj h).symm
  · cases h

lemma listRow_eq_prefix_iff {group : Bytes} :
    listRow pre delimiter e = .Prefix group ↔ rowOf pre delimiter e.1 = .CommonPrefix group := by
  unfold listRow
  cases rowOf pre delimiter e.1 with
  | Key k => simp
  | CommonPrefix g => simp

lemma listRow_eq_or_lt (delimiter : Bytes) (hpre : pre <+: e.1) (hpre' : pre <+: e'.1) (hlt : e.1 < e'.1) :
    listRow pre delimiter e = listRow pre delimiter e'
      ∨ (listRow pre delimiter e).name < (listRow pre delimiter e').name := by
  rw [name_listRow, name_listRow]
  rcases rowOf_eq_or_lt delimiter hpre hpre' hlt with heq | hlt'
  · left
    cases hrow : rowOf pre delimiter e.1 with
    | Key k =>
      have hkey : e.1 = e'.1 := by
        rw [← rowOf_eq_key hrow, ← rowOf_eq_key (heq.symm.trans hrow)]
      exact absurd hkey hlt.ne
    | CommonPrefix g =>
      rw [listRow_eq_prefix_iff.mpr hrow, listRow_eq_prefix_iff.mpr (heq.symm.trans hrow)]
  · exact Or.inr hlt'

lemma name_listRow_le (delimiter : Bytes) (hpre : pre <+: e.1) : (listRow pre delimiter e).name ≤ e.1 := by
  rw [name_listRow]
  cases hrow : rowOf pre delimiter e.1 with
  | Key k => exact (rowOf_eq_key hrow).le
  | CommonPrefix g => exact prefix_le (prefix_of_group hpre hrow)

end Rows

section Covered

variable {pre delimiter : Bytes}

/-- A key is covered by the rows up to `row`. -/
def Covered : ListRow H → Bytes → Prop
  | .Object e, key => key ≤ e.1
  | .Prefix group, key => key < group ∨ group <+: key

instance (row : ListRow H) (key : Bytes) : Decidable (Covered row key) :=
  match row with
  | .Object _ => inferInstanceAs (Decidable (_ ≤ _))
  | .Prefix _ => inferInstanceAs (Decidable (_ ∨ _))

/-- The covered keys are those whose rows come up to the row. -/
lemma covered_iff {e₀ e : Bytes × H} (he₀ : pre <+: e₀.1) (he : pre <+: e.1) :
    Covered (listRow pre delimiter e₀) e.1
      ↔ (listRow pre delimiter e).name ≤ (listRow pre delimiter e₀).name := by
  have hname := name_listRow_le delimiter he
  cases hrow : listRow pre delimiter e₀ with
  | Object x =>
    obtain rfl := listRow_eq_object hrow
    refine ⟨fun hle => hname.trans hle, fun hle => not_lt.mp fun hlt => ?_⟩
    rcases listRow_eq_or_lt delimiter he₀ he hlt with heq | hlt'
    · rw [hrow] at heq
      exact absurd (listRow_eq_object heq.symm) fun h => hlt.ne (congrArg Prod.fst h)
    · rw [hrow] at hlt'
      exact absurd hle (not_le.mpr hlt')
  | Prefix g =>
    have hgroup := listRow_eq_prefix_iff.mp hrow
    have hg := prefix_of_group he₀ hgroup
    constructor
    · rintro (hlt | hpre)
      · exact hname.trans hlt.le
      · have hrow' := listRow_eq_prefix_iff.mpr (rowOf_eq_of_carries he₀ he hgroup hpre)
        rw [hrow']
    · intro hle
      rcases lt_trichotomy e.1 e₀.1 with hlt | heq | hlt
      · by_cases hbelow : e.1 < g
        · exact Or.inl hbelow
        · exact Or.inr (prefix_of_between (not_lt.mp hbelow) hlt.le hg)
      · exact Or.inr (heq ▸ hg)
      · rcases listRow_eq_or_lt delimiter he₀ he hlt with heq | hlt'
        · exact Or.inr (prefix_of_group he (listRow_eq_prefix_iff.mp (heq.symm.trans hrow)))
        · rw [hrow] at hlt'
          exact absurd hle (not_le.mpr hlt')

end Covered

/-! ## The rows of a listing -/

section Entries

variable {objects : List (Bytes × H)} {pre : Bytes}

lemma mem_under {e : Bytes × H} : e ∈ under objects pre ↔ e ∈ objects ∧ pre <+: e.1 := by
  simp [under]

lemma mem_after {cursor : Bytes} {e : Bytes × H} :
    e ∈ after objects pre cursor ↔ e ∈ under objects pre ∧ (cursor = [] ∨ cursor < e.1) := by
  simp [after]

lemma after_nil : after objects pre [] = under objects pre := by simp [after]

lemma pairwise_after (hsorted : objects.Pairwise fun a b => a.1 < b.1) (pre cursor : Bytes) :
    (after objects pre cursor).Pairwise fun a b => a.1 < b.1 := (hsorted.filter _).filter _

/-- In a list of entries in order, the entries after a cursor are a tail. -/
lemma filter_suffix {l : List (Bytes × H)} (hsorted : l.Pairwise fun a b => a.1 < b.1)
    (cursor : Bytes) : l.filter (fun e => cursor < e.1) <:+ l := by
  induction l with
  | nil => exact List.suffix_refl _
  | cons e l ih =>
    rw [List.pairwise_cons] at hsorted
    by_cases he : cursor < e.1
    · have hall : ∀ x ∈ e :: l, cursor < x.1 := by
        intro x hx
        rcases List.mem_cons.mp hx with rfl | hx
        · exact he
        · exact he.trans (hsorted.1 x hx)
      rw [List.filter_eq_self.mpr fun x hx => by simpa using hall x hx]
    · rw [List.filter_cons_of_neg (by simpa using he)]
      exact (ih hsorted.2).trans (List.suffix_cons _ _)

lemma after_suffix (hsorted : objects.Pairwise fun a b => a.1 < b.1) (pre cursor : Bytes) :
    after objects pre cursor <:+ under objects pre := by
  by_cases hnil : cursor = []
  · rw [hnil, after_nil]
  · have heq : after objects pre cursor = (under objects pre).filter fun e => cursor < e.1 :=
      List.filter_congr fun e _ => by simp [hnil]
    rw [heq]
    exact filter_suffix (hsorted.filter _) cursor

end Entries

section Listing

variable [DecidableEq H] {objects : List (Bytes × H)} {pre delimiter : Bytes}

/-- The rows after a cursor. -/
def rowsAfter (objects : List (Bytes × H)) (pre delimiter cursor : Bytes) : List (ListRow H) :=
  blocks ((after objects pre cursor).map (listRow pre delimiter))

lemma mem_rowsAfter {cursor : Bytes} {row : ListRow H} :
    row ∈ rowsAfter objects pre delimiter cursor
      ↔ ∃ e ∈ after objects pre cursor, listRow pre delimiter e = row := by
  rw [rowsAfter, mem_blocks, List.mem_map]

lemma rowsAfter_suffix (hsorted : objects.Pairwise fun a b => a.1 < b.1)
    (pre delimiter cursor : Bytes) :
    rowsAfter objects pre delimiter cursor <:+ rowsAfter objects pre delimiter [] := by
  refine blocks_suffix ?_
  rw [after_nil]
  obtain ⟨t, ht⟩ := after_suffix hsorted pre cursor
  rw [← ht, List.map_append]
  exact List.suffix_append _ _

lemma pairwise_rowsAfter (hsorted : objects.Pairwise fun a b => a.1 < b.1)
    (pre delimiter cursor : Bytes) :
    (rowsAfter objects pre delimiter cursor).Pairwise fun a b => a.name < b.name := by
  refine pairwise_blocks (fun a b hab => not_lt.mpr hab.le) (List.pairwise_map.mpr ?_)
  refine (pairwise_after hsorted pre cursor).imp_of_mem ?_
  intro a b ha hb hab
  exact listRow_eq_or_lt delimiter (mem_under.mp (mem_after.mp ha).1).2 (mem_under.mp (mem_after.mp hb).1).2 hab

lemma nodup_rowsAfter (hsorted : objects.Pairwise fun a b => a.1 < b.1)
    (pre delimiter cursor : Bytes) :
    (rowsAfter objects pre delimiter cursor).Nodup :=
  (pairwise_rowsAfter hsorted pre delimiter cursor).imp fun hlt heq => hlt.ne (congrArg ListRow.name heq)

/-- There is one exact outcome. -/
lemma exact_iff (hsorted : objects.Pairwise fun a b => a.1 < b.1) {rows : List (ListRow H)} :
    Exact objects pre delimiter rows ↔ rows = rowsAfter objects pre delimiter [] := by
  have hmem : ∀ row, row ∈ rowsAfter objects pre delimiter []
      ↔ ∃ e ∈ objects, pre <+: e.1 ∧ listRow pre delimiter e = row := by
    intro row
    rw [mem_rowsAfter, after_nil]
    simp only [mem_under, and_assoc]
  constructor
  · intro h
    have hperm : rows.Perm (rowsAfter objects pre delimiter []) := by
      refine (List.perm_ext_iff_of_nodup ?_ (nodup_rowsAfter hsorted pre delimiter [])).mpr fun row => ?_
      · exact h.sorted.imp fun hlt heq => hlt.ne (congrArg ListRow.name heq)
      · rw [h.complete, hmem]
    refine hperm.eq_of_pairwise ?_ h.sorted (pairwise_rowsAfter hsorted pre delimiter [])
    intro a b _ _ hab hba
    exact absurd hba (not_lt.mpr hab.le)
  · rintro rfl
    exact ⟨pairwise_rowsAfter hsorted pre delimiter [], hmem⟩

/-! ## Where a batch resumes -/

/-- The condition on the key `t` that a listing resumes after, behind its last row: it is not empty,
no key that is covered lies after it, and every other row has a key after it. -/
def Resumes (objects : List (Bytes × H)) (pre delimiter : Bytes) (row : ListRow H) (t : Bytes) :
    Prop :=
  t ≠ [] ∧ ∀ e ∈ under objects pre,
    if Covered row e.1 then e.1 ≤ t
    else ∃ e' ∈ under objects pre, t < e'.1 ∧ listRow pre delimiter e' = listRow pre delimiter e

/-- A key to resume after is right exactly when it leaves the rows that were not returned. -/
lemma resumes_iff (hsorted : objects.Pairwise fun a b => a.1 < b.1)
    {returned rest : List (ListRow H)} {row : ListRow H} {t : Bytes}
    (hsplit : rowsAfter objects pre delimiter [] = returned ++ rest)
    (hlast : returned.getLast? = some row) :
    Resumes objects pre delimiter row t
      ↔ t ≠ [] ∧ rowsAfter objects pre delimiter t = rest := by
  have hpair := pairwise_rowsAfter hsorted pre delimiter []
  have hnodup := nodup_rowsAfter hsorted pre delimiter []
  rw [hsplit] at hpair hnodup
  have hdisj : ∀ x ∈ returned, x ∉ rest := fun x hx hx' =>
    List.disjoint_of_nodup_append hnodup hx hx'
  have hmem : ∀ e ∈ under objects pre,
      listRow pre delimiter e ∈ returned ∨ listRow pre delimiter e ∈ rest := by
    intro e he
    rw [← List.mem_append, ← hsplit]
    exact mem_rowsAfter.mpr ⟨e, by rwa [after_nil], rfl⟩
  obtain ⟨init, rfl⟩ := List.getLast?_eq_some_iff.mp hlast
  obtain ⟨e₀, he₀, rfl⟩ : ∃ e ∈ under objects pre, listRow pre delimiter e = row := by
    have hrow : row ∈ rowsAfter objects pre delimiter [] := by simp [hsplit]
    obtain ⟨e, he, heq⟩ := mem_rowsAfter.mp hrow
    exact ⟨e, (mem_after.mp he).1, heq⟩
  have hcovered : ∀ e ∈ under objects pre,
      Covered (listRow pre delimiter e₀) e.1
        ↔ listRow pre delimiter e ∈ init ++ [listRow pre delimiter e₀] := by
    intro e he
    rw [covered_iff (mem_under.mp he₀).2 (mem_under.mp he).2]
    have hinit := (List.pairwise_append.mp (List.pairwise_append.mp hpair).1).2.2
    have hcross := (List.pairwise_append.mp hpair).2.2
    constructor
    · intro hle
      refine (hmem e he).resolve_right fun hrest => ?_
      exact absurd hle (not_le.mpr (hcross _ (by simp) _ hrest))
    · intro hin
      rcases List.mem_append.mp hin with hin | hin
      · exact (hinit _ hin _ (by simp)).le
      · rw [List.mem_singleton.mp hin]
  constructor
  · rintro ⟨hne, hall⟩
    refine ⟨hne, eq_of_suffix_of_mem (nodup_rowsAfter hsorted pre delimiter []) (rowsAfter_suffix hsorted pre delimiter t)
      ⟨_, hsplit.symm⟩ fun x => ⟨?_, ?_⟩⟩
    · intro hx
      obtain ⟨e, he, rfl⟩ := mem_rowsAfter.mp hx
      obtain ⟨hunder, hafter⟩ := mem_after.mp he
      refine (hmem e hunder).resolve_left fun hin => ?_
      have hcase := hall e hunder
      rw [if_pos ((hcovered e hunder).mpr hin)] at hcase
      exact absurd (hafter.resolve_left hne) (not_lt.mpr hcase)
    · intro hx
      have hx' : x ∈ rowsAfter objects pre delimiter [] := by
        rw [hsplit]
        exact List.mem_append_right _ hx
      obtain ⟨e, he, rfl⟩ := mem_rowsAfter.mp hx'
      have hunder := (mem_after.mp he).1
      have hcase := hall e hunder
      rw [if_neg fun hcov => hdisj _ ((hcovered e hunder).mp hcov) hx] at hcase
      obtain ⟨e', he', hlt, heq⟩ := hcase
      exact mem_rowsAfter.mpr ⟨e', mem_after.mpr ⟨he', Or.inr hlt⟩, heq⟩
  · rintro ⟨hne, heq⟩
    refine ⟨hne, fun e he => ?_⟩
    split_ifs with hcov
    · by_contra hlt
      have hin : listRow pre delimiter e ∈ rest := by
        rw [← heq]
        exact mem_rowsAfter.mpr ⟨e, mem_after.mpr ⟨he, Or.inr (not_le.mp hlt)⟩, rfl⟩
      exact hdisj _ ((hcovered e he).mp hcov) hin
    · have hin : listRow pre delimiter e ∈ rest :=
        (hmem e he).resolve_left fun hin => hcov ((hcovered e he).mpr hin)
      rw [← heq] at hin
      obtain ⟨e', he', hrow⟩ := mem_rowsAfter.mp hin
      obtain ⟨hunder, hafter⟩ := mem_after.mp he'
      exact ⟨e', hunder, hafter.resolve_left hne, hrow⟩

end Listing

end Epoch.Gateway
