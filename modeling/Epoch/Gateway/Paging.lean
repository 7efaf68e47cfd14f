import Epoch.Lib.Lists
import Epoch.Gateway.Rows

/-!
# Following the pages of a listing

A batch returns a head of the rows after its cursor, and the listing is exact when the key it resumes
after leaves exactly the rest.  That is not always so: a batch that ends in a group resumes after the
group's upper bound, which may itself be a key (`upper_bound_is_skipped`), and as text may be another
key; a page that runs out of rows behind a group resumes inside it.

`StopsWell` says in terms of the keys where a batch may stop, and `paging_exact_iff` that the pages end
and are exact, if and only if every batch of the listing that is followed by a request stops well.
-/

namespace Epoch.Gateway

variable {H : Type*}

section Cursor

variable {pre delimiter x : Bytes} {e e' : Bytes × H} {entries : List (Bytes × H)}

variable {s y : Bytes} {a : UInt8}

lemma prefixEnd_append (h : prefixEnd x = some y) :
    prefixEnd (s ++ x) = some (s ++ y) := by
  induction s with
  | nil => exact h
  | cons a s ih =>
    rw [List.cons_append, prefixEnd_cons, ih]
    rfl

lemma exists_prefixEnd_of_mem (ha : a ∈ x) (hne : a ≠ 0xff) :
    ∃ y, prefixEnd x = some y := by
  induction x with
  | nil => exact absurd ha List.not_mem_nil
  | cons b x ih =>
    rw [prefixEnd_cons]
    cases hx : prefixEnd x with
    | some y => exact ⟨_, rfl⟩
    | none =>
      rcases List.mem_cons.mp ha with rfl | hmem
      · exact ⟨_, if_neg hne⟩
      · obtain ⟨y, hy⟩ := ih hmem
        rw [hx] at hy
        exact absurd hy (by simp)

lemma head_ne_of_isUtf8 (h : IsUtf8 (a :: s)) : a ≠ 0xff := by
  rintro rfl
  rw [IsUtf8, List.length_cons, Utf8.valid, Bool.and_eq_true] at h
  exact absurd h.1 (by simp [Utf8.chunk])

lemma prefixEnd_ne_nil (h : prefixEnd x = some y) : y ≠ [] := by
  rintro rfl
  exact absurd ((prefixEnd_spec h x).mpr (List.prefix_refl x)).2 (not_lt.mpr (nil_le x))

/-- A group's upper bound goes on behind the prefix, also as text. -/
lemma prefix_upperBound {g : Bytes} (hpre : IsUtf8 pre) (hdel : IsUtf8 delimiter)
    (he : pre <+: e.1) (hg : rowOf pre delimiter e.1 = .CommonPrefix g) :
    (pre <+: upperBound g ∧ upperBound g ≠ [])
      ∧ pre <+: fromUtf8Lossy (upperBound g) ∧ fromUtf8Lossy (upperBound g) ≠ [] := by
  obtain ⟨mid, rfl, -, hfind⟩ := (rowOf_eq_group_iff he).mp hg
  obtain ⟨a, tail, htail⟩ := List.exists_cons_of_ne_nil (find_eq_some.mp hfind).1
  obtain ⟨y, hy⟩ : ∃ y, prefixEnd (mid ++ delimiter) = some y := by
    refine exists_prefixEnd_of_mem (a := a) ?_ (head_ne_of_isUtf8 (htail ▸ hdel))
    rw [htail]
    simp
  rw [upperBound, prefixEnd_append hy, Option.getD_some, fromUtf8Lossy_append hpre]
  have hne := prefixEnd_ne_nil hy
  have hne' := fromUtf8Lossy_ne_nil hne
  exact ⟨⟨List.prefix_append _ _, by simp [hne]⟩, List.prefix_append _ _, by simp [hne']⟩

lemma eq_of_key_eq (hsorted : entries.Pairwise fun a b => a.1 < b.1) (he : e ∈ entries)
    (he' : e' ∈ entries) (heq : e.1 = e'.1) : e = e' := by
  have hinj : (entries.map Prod.fst).Nodup :=
    List.pairwise_map.mpr (hsorted.imp fun hlt => hlt.ne)
  exact List.inj_on_of_nodup_map hinj he he' heq

/-- The entries' rows tell apart what the rows of their keys do. -/
lemma listRow_eq_iff (hsorted : entries.Pairwise fun a b => a.1 < b.1) (he : e ∈ entries)
    (he' : e' ∈ entries) :
    listRow pre delimiter e = listRow pre delimiter e'
      ↔ rowOf pre delimiter e.1 = rowOf pre delimiter e'.1 := by
  constructor
  · intro h
    rw [← row_listRow, h, row_listRow]
  · intro h
    cases hrow : rowOf pre delimiter e.1 with
    | Key k =>
      have hkey : e.1 = e'.1 := by
        rw [← rowOf_eq_key hrow, ← rowOf_eq_key (h.symm.trans hrow)]
      rw [eq_of_key_eq hsorted he he' hkey]
    | CommonPrefix g =>
      rw [listRow_eq_prefix_iff.mpr hrow, listRow_eq_prefix_iff.mpr (h.symm.trans hrow)]

lemma keys_under (hpre : ∀ e ∈ entries, pre <+: e.1) :
    ∀ k ∈ entries.map Prod.fst, pre <+: k := by
  intro k hk
  obtain ⟨e, he, rfl⟩ := List.mem_map.mp hk
  exact hpre e he

/-- Entries up to one of a head of the list are in that head. -/
lemma mem_take_of_le {l : List (Bytes × H)} (hsorted : l.Pairwise fun a b => a.1 < b.1) {n : ℕ}
    (he : e ∈ l.take n) (he' : e' ∈ l) (hle : e'.1 ≤ e.1) :
    e' ∈ l.take n := by
  rw [← List.take_append_drop n l, List.pairwise_append] at hsorted
  rw [← List.take_append_drop n l] at he'
  rcases List.mem_append.mp he' with htake | hdrop
  · exact htake
  · exact absurd hle (not_le.mpr (hsorted.2.2 e he e' hdrop))

lemma resumes_object (objects : List (Bytes × H)) (pre delimiter : Bytes) (e : Bytes × H) :
    Resumes objects pre delimiter (.Object e) e.1 ↔ e.1 ≠ [] := by
  refine ⟨And.left, fun hne => ⟨hne, fun x hx => ?_⟩⟩
  split_ifs with hcov
  · exact hcov
  · exact ⟨x, hx, not_le.mp hcov, rfl⟩

end Cursor

section Listed

variable {ε : Type*} {listObjects : Bytes → Bytes → ℕ → Except ε (List (Bytes × H))}
  {objects : List (Bytes × H)} {pre delimiter : Bytes} {limit : ℕ}

/-- A bucket whose objects are listed in pages, and a request in text. -/
structure Listed (listObjects : Bytes → Bytes → ℕ → Except ε (List (Bytes × H)))
    (objects : List (Bytes × H)) (pre delimiter : Bytes) (limit : ℕ) : Prop where
  sorted : objects.Pairwise fun a b => a.1 < b.1
  utf8 : ∀ e ∈ objects, IsUtf8 e.1
  prefix_utf8 : IsUtf8 pre
  delimiter_utf8 : IsUtf8 delimiter
  limit_pos : 0 < limit
  pages : ∀ cursor, cursor = [] ∨ pre ≤ cursor →
    listObjects pre cursor limit = .ok ((after objects pre cursor).take limit)

end Listed

section Listing

variable [DecidableEq H] {objects : List (Bytes × H)} {pre delimiter : Bytes}

/-! ## One batch -/

variable {entries : List (Bytes × H)}

lemma map_row_blocks (hsorted : entries.Pairwise fun a b => a.1 < b.1) :
    blocks ((entries.map Prod.fst).map (rowOf pre delimiter))
      = (blocks (entries.map (listRow pre delimiter))).map ListRow.row := by
  rw [← map_blocks]
  · simp only [List.map_map, Function.comp_def, row_listRow]
  · intro a ha b hb hab
    obtain ⟨e, he, rfl⟩ := List.mem_map.mp ha
    obtain ⟨e', he', rfl⟩ := List.mem_map.mp hb
    rw [row_listRow, row_listRow] at hab
    exact (listRow_eq_iff hsorted he he').mpr hab

variable {budget : ℕ}

lemma foldBatch_rows (delimiter : Bytes) (hpre : ∀ e ∈ entries, pre <+: e.1)
    (hsorted : entries.Pairwise fun a b => a.1 < b.1) (hbudget : 0 < budget) :
    (foldBatch pre delimiter budget entries).1
      = (blocks (entries.map (listRow pre delimiter))).take budget := by
  have hspec := fold_spec delimiter (keys_under hpre) (List.pairwise_map.mpr hsorted) hbudget
  have hattach : ∀ row ∈ (blocks (entries.map (listRow pre delimiter))).take budget,
      attach entries row.row = some row := by
    intro row hrow
    obtain ⟨e, he, rfl⟩ := List.mem_map.mp (mem_blocks.mp (List.mem_of_mem_take hrow))
    cases hlist : listRow pre delimiter e with
    | Object x =>
      obtain rfl := listRow_eq_object hlist
      obtain ⟨y, hy⟩ : ∃ y, entries.find? (fun z => z.1 = x.1) = some y := by
        rw [← Option.isSome_iff_exists, List.find?_isSome]
        exact ⟨x, he, by simp⟩
      have hyx : y = x :=
        eq_of_key_eq hsorted (List.mem_of_find?_eq_some hy) he (by simpa using List.find?_some hy)
      rw [ListRow.row, attach, hy, hyx]
      rfl
    | Prefix g => rfl
  unfold foldBatch
  simp only
  rw [hspec.rows, map_row_blocks hsorted, ← List.map_take, List.filterMap_map]
  have hid := List.filterMap_congr hattach
  rw [List.filterMap_some] at hid
  exact hid

/-- Where a batch resumes: when the rows do not fit, after the first key of its last row; else past
the last group, or after the last key. -/
lemma foldBatch_next (delimiter : Bytes) (hpre : ∀ e ∈ entries, pre <+: e.1)
    (hsorted : entries.Pairwise fun a b => a.1 < b.1) (hbudget : 0 < budget) (hne : entries ≠ []) :
    ∃ e ∈ entries, (foldBatch pre delimiter budget entries).1.getLast?
        = some (listRow pre delimiter e)
      ∧ ((budget < (blocks (entries.map (listRow pre delimiter))).length
          ∧ (foldBatch pre delimiter budget entries).2 = e.1
          ∧ ∀ e' ∈ entries, listRow pre delimiter e' = listRow pre delimiter e → e.1 ≤ e'.1)
        ∨ ((blocks (entries.map (listRow pre delimiter))).length ≤ budget
          ∧ (foldBatch pre delimiter budget entries).2 = match listRow pre delimiter e with
            | .Object _ => e.1
            | .Prefix group => upperBound group)) := by
  have hspec := fold_spec delimiter (keys_under hpre) (List.pairwise_map.mpr hsorted) hbudget
  obtain ⟨last, hlast⟩ := Option.isSome_iff_exists.mp (List.getLast?_isSome.mpr hne)
  have hlen : (blocks ((entries.map Prod.fst).map (rowOf pre delimiter))).length
      = (blocks (entries.map (listRow pre delimiter))).length := by
    rw [map_row_blocks hsorted, List.length_map]
  rw [foldBatch_rows delimiter hpre hsorted hbudget]
  by_cases hcut : budget < (blocks (entries.map (listRow pre delimiter))).length
  · obtain ⟨t, ht, hresume, hrow, hfirst⟩ := hspec.cut (hlen ▸ hcut)
    obtain ⟨e, he, rfl⟩ := List.mem_map.mp ht
    refine ⟨e, he, ?_, Or.inl ⟨hcut, by rw [foldBatch, hresume]; rfl, fun e' he' heq => ?_⟩⟩
    · rw [hspec.rows, map_row_blocks hsorted, ← List.map_take, List.getLast?_map] at hrow
      obtain ⟨row, hrow', heq⟩ := Option.map_eq_some_iff.mp hrow
      have hmem := List.mem_of_mem_take (List.mem_of_getLast? hrow')
      obtain ⟨e', he', rfl⟩ := List.mem_map.mp (mem_blocks.mp hmem)
      rw [row_listRow] at heq
      rw [hrow', (listRow_eq_iff hsorted he' he).mpr heq]
    · exact hfirst e'.1 (List.mem_map_of_mem he') ((listRow_eq_iff hsorted he' he).mp heq)
  · have hmem := List.mem_of_getLast? hlast
    have hresume := hspec.whole (hlen ▸ not_lt.mp hcut)
    simp only [List.getLast?_map, hlast, Option.map_some] at hresume
    refine ⟨last, hmem, ?_, Or.inr ⟨not_lt.mp hcut, ?_⟩⟩
    · rw [List.take_of_length_le (not_lt.mp hcut), getLast?_blocks, List.getLast?_map, hlast]
      rfl
    · cases hrow : rowOf pre delimiter last.1 with
      | Key k =>
        simp only [hrow] at hresume
        rw [foldBatch, hresume, List.getLast?_map, hlast, listRow, hrow]
        rfl
      | CommonPrefix g =>
        simp only [hrow] at hresume
        rw [foldBatch, hresume, listRow, hrow]
        rfl

/-! ## Pages -/

section Steps

variable {ε : Type*} {listObjects : Bytes → Bytes → ℕ → Except ε (List (Bytes × H))} {limit : ℕ}

/-- The entries of a batch. -/
lemma Listed.page (h : Listed listObjects objects pre delimiter limit) (cursor : Bytes) :
    (∀ e ∈ (after objects pre cursor).take limit, e ∈ objects ∧ pre <+: e.1)
      ∧ ((after objects pre cursor).take limit).Pairwise fun a b => a.1 < b.1 :=
  ⟨fun _ he => mem_under.mp (mem_after.mp (List.mem_of_mem_take he)).1,
    (pairwise_after h.sorted pre cursor).sublist (List.take_sublist _ _)⟩

variable {budget : ℕ} {t : Bytes} {batch rest : List (ListRow H)}

/-- A batch does not resume before the prefix, also as text. -/
lemma Listed.le_cursor (h : Listed listObjects objects pre delimiter limit) (cursor : Bytes)
    (hbudget : 0 < budget) (hempty : (after objects pre cursor).take limit ≠ []) :
    pre ≤ (foldBatch pre delimiter budget ((after objects pre cursor).take limit)).2
      ∧ pre ≤ fromUtf8Lossy
        (foldBatch pre delimiter budget ((after objects pre cursor).take limit)).2 := by
  obtain ⟨hunder, hpair⟩ := h.page cursor
  obtain ⟨e, he, -, hcase⟩ :=
    foldBatch_next delimiter (fun e he => (hunder e he).2) hpair hbudget hempty
  have hkey : pre ≤ e.1 ∧ pre ≤ fromUtf8Lossy e.1 := by
    rw [fromUtf8Lossy_of_isUtf8 (h.utf8 e (hunder e he).1)]
    exact ⟨prefix_le (hunder e he).2, prefix_le (hunder e he).2⟩
  rcases hcase with ⟨-, heq, -⟩ | ⟨-, heq⟩
  · rwa [heq]
  · rw [heq]
    cases hrow : listRow pre delimiter e with
    | Object x => exact hkey
    | Prefix g =>
      obtain ⟨hub, hub'⟩ := prefix_upperBound h.prefix_utf8 h.delimiter_utf8 (hunder e he).2
        (listRow_eq_prefix_iff.mp hrow)
      exact ⟨prefix_le hub.1, prefix_le hub'.1⟩

/-- Where a batch may stop, in terms of the keys.  The batch has the rows of the next `limit` keys, of
which the page has room for `budget`.  If its last row is an object, the key is not empty.  If it is a
group and the rows do not fit, the group has one key after the cursor; if they fit, the group's upper
bound, read as text where the page ends, parts the keys up to the group from the other rows. -/
def StopsWell (objects : List (Bytes × H)) (pre delimiter : Bytes) (limit budget : ℕ)
    (cursor : Bytes) (text : Bool) : Prop :=
  let rows := blocks (((after objects pre cursor).take limit).map (listRow pre delimiter))
  match (rows.take budget).getLast? with
  | none => True
  | some (.Object e) => e.1 ≠ []
  | some (.Prefix group) =>
    if budget < rows.length then
      ∀ e ∈ after objects pre cursor, ∀ e' ∈ after objects pre cursor,
        group <+: e.1 → group <+: e'.1 → e = e'
    else
      let t := if text then fromUtf8Lossy (upperBound group) else upperBound group
      ∀ e ∈ under objects pre,
        if Covered (ListRow.Prefix group : ListRow H) e.1 then e.1 ≤ t
        else ∃ e' ∈ under objects pre,
          t < e'.1 ∧ listRow pre delimiter e' = listRow pre delimiter e

variable {cursor : Bytes} {rows : List (ListRow H)}

/-- Resuming after the first key of a group is right when it is the only one. -/
lemma resumes_group (hsorted : objects.Pairwise fun a b => a.1 < b.1) {cursor group : Bytes}
    {e : Bytes × H} (he : e ∈ (after objects pre cursor).take limit)
    (hrow : listRow pre delimiter e = .Prefix group) (hgroup : group ≠ [])
    (hfirst : ∀ e' ∈ (after objects pre cursor).take limit,
      listRow pre delimiter e' = listRow pre delimiter e → e.1 ≤ e'.1) :
    Resumes objects pre delimiter (.Prefix group) e.1
      ↔ ∀ x ∈ after objects pre cursor, ∀ y ∈ after objects pre cursor,
        group <+: x.1 → group <+: y.1 → x = y := by
  have hafter := List.mem_of_mem_take he
  obtain ⟨hunder, hcursor⟩ := mem_after.mp hafter
  have hpre := (mem_under.mp hunder).2
  have hrowOf := listRow_eq_prefix_iff.mp hrow
  have hcarries := prefix_of_group hpre hrowOf
  have hpair := pairwise_after hsorted pre cursor
  constructor
  · rintro ⟨-, hall⟩
    have hself : ∀ x ∈ after objects pre cursor, group <+: x.1 → x = e := by
      intro x hx hg
      have hxu := (mem_after.mp hx).1
      have hle := hall x hxu
      rw [if_pos (show Covered (ListRow.Prefix group : ListRow H) x.1 from Or.inr hg)] at hle
      have hxrow : listRow pre delimiter x = listRow pre delimiter e := by
        rw [hrow, listRow_eq_prefix_iff]
        exact rowOf_eq_of_carries hpre (mem_under.mp hxu).2 hrowOf hg
      have hge := hfirst x (mem_take_of_le hpair he hx hle) hxrow
      exact eq_of_key_eq hpair hx hafter (le_antisymm hle hge)
    intro x hx y hy hxg hyg
    rw [hself x hx hxg, hself y hy hyg]
  · intro honly
    refine ⟨fun hnil => hgroup (List.prefix_nil.mp (hnil ▸ hcarries)), fun x hx => ?_⟩
    split_ifs with hcov
    · rcases hcov with hlt | hg
      · exact hlt.le.trans (prefix_le hcarries)
      · by_cases hxa : x ∈ after objects pre cursor
        · rw [honly x hxa e hafter hg hcarries]
        · obtain ⟨hne, hle⟩ := not_or.mp fun h => hxa (mem_after.mpr ⟨hx, h⟩)
          exact (not_lt.mp hle).trans (hcursor.resolve_left hne).le
    · refine ⟨x, hx, not_le.mp fun hle => hcov ?_, rfl⟩
      by_cases hlt : x.1 < group
      · exact Or.inl hlt
      · exact Or.inr (prefix_of_between (not_lt.mp hlt) hle hcarries)

/-- A batch stops well exactly when it resumes in the right place. -/
lemma stopsWell_iff (h : Listed listObjects objects pre delimiter limit) (cursor : Bytes)
    (hbudget : 0 < budget) (hempty : (after objects pre cursor).take limit ≠ []) (text : Bool) :
    let batch := foldBatch pre delimiter budget ((after objects pre cursor).take limit)
    StopsWell objects pre delimiter limit budget cursor text
      ↔ ∀ row ∈ batch.1.getLast?, Resumes objects pre delimiter row
        (if text then fromUtf8Lossy batch.2 else batch.2) := by
  intro batch
  obtain ⟨hunder, hpair⟩ := h.page cursor
  have hrows : batch.1 = _ := foldBatch_rows delimiter (fun e he => (hunder e he).2) hpair hbudget
  obtain ⟨e, he, hlast, hcase⟩ :=
    foldBatch_next delimiter (fun e he => (hunder e he).2) hpair hbudget hempty
  have hkey : batch.2 = e.1 → (if text then fromUtf8Lossy batch.2 else batch.2) = e.1 := by
    intro heq
    rw [heq, fromUtf8Lossy_of_isUtf8 (h.utf8 e (hunder e he).1), ite_self]
  rw [StopsWell, ← hrows, hlast]
  simp only [Option.mem_some_iff, forall_eq']
  cases hrow : listRow pre delimiter e with
  | Object x =>
    obtain rfl := listRow_eq_object hrow
    have heq : batch.2 = x.1 := by
      rcases hcase with ⟨-, heq, -⟩ | ⟨-, heq⟩
      · exact heq
      · rw [hrow] at heq
        exact heq
    rw [hkey heq]
    exact (resumes_object objects pre delimiter x).symm
  | Prefix g =>
    have hgroup := listRow_eq_prefix_iff.mp hrow
    dsimp only
    rcases hcase with ⟨hcut, heq, hfirst⟩ | ⟨hfits, heq⟩
    · rw [if_pos hcut, hkey heq]
      exact (resumes_group h.sorted he hrow (group_ne_nil (hunder e he).2 hgroup) hfirst).symm
    · rw [hrow] at heq
      have ht : batch.2 = upperBound g := heq
      obtain ⟨⟨-, hne⟩, -, hne'⟩ :=
        prefix_upperBound h.prefix_utf8 h.delimiter_utf8 (hunder e he).2 hgroup
      rw [if_neg (not_lt.mpr hfits), ht]
      refine ⟨fun hall => ⟨?_, hall⟩, And.right⟩
      cases text
      · exact hne
      · exact hne'

/-- Every batch of a page that is followed by another request stops well; the last one of a page
resumes after a text. -/
def CleanLoop (objects : List (Bytes × H)) (pre delimiter : Bytes) (limit : ℕ) :
    ℕ → Bytes → List (ListRow H) → Prop
  | 0, _, _ => True
  | n + 1, cursor, rows =>
    let entries := (after objects pre cursor).take limit
    let batch := foldBatch pre delimiter (limit - rows.length) entries
    if entries = [] then True
    else if limit ≤ (rows ++ batch.1).length then
      StopsWell objects pre delimiter limit (limit - rows.length) cursor true
    else if entries.length < limit then True
    else
      StopsWell objects pre delimiter limit (limit - rows.length) cursor (n = 0)
        ∧ CleanLoop objects pre delimiter limit n batch.2 (rows ++ batch.1)

/-- What a batch does: nothing is left, or a nonempty head of the rows is returned.  Then the page
ends with a token, or everything was returned, or the loop goes on. -/
lemma listFlatLoop_cases (h : Listed listObjects objects pre delimiter limit) (n : ℕ)
    (hcursor : cursor = [] ∨ pre ≤ cursor) (hroom : rows.length < limit) :
    (rowsAfter objects pre delimiter cursor = []
        ∧ listFlatLoop listObjects pre delimiter limit (n + 1) cursor rows = .ok ⟨rows, none⟩
        ∧ CleanLoop objects pre delimiter limit (n + 1) cursor rows)
      ∨ ∃ batch rest next, rowsAfter objects pre delimiter cursor = batch ++ rest ∧ batch ≠ []
        ∧ pre ≤ next ∧ pre ≤ fromUtf8Lossy next
        ∧ ((listFlatLoop listObjects pre delimiter limit (n + 1) cursor rows
                = .ok ⟨rows ++ batch, some next⟩
              ∧ (CleanLoop objects pre delimiter limit (n + 1) cursor rows
                ↔ fromUtf8Lossy next ≠ []
                  ∧ rowsAfter objects pre delimiter (fromUtf8Lossy next) = rest))
          ∨ (rest = []
              ∧ listFlatLoop listObjects pre delimiter limit (n + 1) cursor rows
                = .ok ⟨rows ++ batch, none⟩
              ∧ CleanLoop objects pre delimiter limit (n + 1) cursor rows)
          ∨ ∃ m, n = m + 1 ∧ (rows ++ batch).length < limit
              ∧ listFlatLoop listObjects pre delimiter limit (n + 1) cursor rows
                = listFlatLoop listObjects pre delimiter limit n next (rows ++ batch)
              ∧ (CleanLoop objects pre delimiter limit (n + 1) cursor rows
                ↔ (next ≠ [] ∧ rowsAfter objects pre delimiter next = rest)
                  ∧ CleanLoop objects pre delimiter limit n next (rows ++ batch))) := by
  rw [listFlatLoop, CleanLoop, h.pages cursor hcursor]
  simp only
  by_cases hempty : (after objects pre cursor).take limit = []
  · left
    have hnil : after objects pre cursor = [] :=
      (List.take_eq_nil_iff.mp hempty).resolve_left h.limit_pos.ne'
    rw [if_pos hempty, if_pos hempty]
    refine ⟨?_, rfl, trivial⟩
    rw [rowsAfter, hnil]
    rfl
  right
  rw [if_neg hempty, if_neg hempty]
  have hbudget : 0 < limit - rows.length := by omega
  obtain ⟨hunder, hpair⟩ := h.page cursor
  have hrows := foldBatch_rows delimiter (fun e he => (hunder e he).2) hpair hbudget
  obtain ⟨hle, hle'⟩ := h.le_cursor cursor hbudget hempty
  obtain ⟨batch, hbatch⟩ : ∃ batch, batch = foldBatch pre delimiter (limit - rows.length)
    ((after objects pre cursor).take limit) := ⟨_, rfl⟩
  rw [← hbatch] at hrows hle hle' ⊢
  have hblocks : blocks (((after objects pre cursor).take limit).map (listRow pre delimiter))
      <+: rowsAfter objects pre delimiter cursor :=
    blocks_prefix ((List.take_prefix _ _).map _)
  obtain ⟨rest, hsplit⟩ : batch.1 <+: rowsAfter objects pre delimiter cursor :=
    hrows ▸ (List.take_prefix _ _).trans hblocks
  have hne : batch.1 ≠ [] := by
    rw [hrows]
    intro hnil
    rcases List.take_eq_nil_iff.mp hnil with hzero | hzero
    · omega
    · exact hempty (List.map_eq_nil_iff.mp (blocks_eq_nil.mp hzero))
  obtain ⟨row, hrow⟩ := Option.isSome_iff_exists.mp (List.getLast?_isSome.mpr hne)
  obtain ⟨before, hbefore⟩ := rowsAfter_suffix h.sorted pre delimiter cursor
  have hstops := fun text => stopsWell_iff h cursor hbudget hempty text
  rw [← hbatch] at hstops
  have hresumes : ∀ t, (∀ row ∈ batch.1.getLast?, Resumes objects pre delimiter row t)
      ↔ t ≠ [] ∧ rowsAfter objects pre delimiter t = rest := by
    intro t
    have hiff := resumes_iff (t := t) h.sorted
      (show rowsAfter objects pre delimiter [] = (before ++ batch.1) ++ rest by
        rw [List.append_assoc, hsplit, hbefore])
      (show (before ++ batch.1).getLast? = some row by
        rw [List.getLast?_append, hrow]
        rfl)
    rw [hrow, ← hiff]
    simp
  refine ⟨batch.1, rest, batch.2, hsplit.symm, hne, hle, hle', ?_⟩
  by_cases hfull : limit ≤ (rows ++ batch.1).length
  · rw [if_pos hfull, if_pos hfull]
    exact Or.inl ⟨rfl, (hstops true).trans (hresumes _)⟩
  rw [if_neg hfull, if_neg hfull]
  by_cases hshort : ((after objects pre cursor).take limit).length < limit
  · rw [if_pos hshort, if_pos hshort]
    refine Or.inr (Or.inl ⟨?_, rfl, trivial⟩)
    -- the batch has all entries, and its rows fit
    have hall : (after objects pre cursor).take limit = after objects pre cursor := by
      rw [List.length_take] at hshort
      exact List.take_of_length_le (by omega)
    have hlen : batch.1.length < limit - rows.length := by
      rw [List.length_append] at hfull
      omega
    have hbatch' : batch.1 = rowsAfter objects pre delimiter cursor := by
      rw [hall] at hrows
      rw [hrows, List.length_take] at hlen
      rw [hrows, List.take_of_length_le (by omega), rowsAfter]
    rw [hbatch'] at hsplit
    exact List.append_right_eq_self.mp hsplit
  rw [if_neg hshort, if_neg hshort]
  cases n with
  | zero =>
    refine Or.inl ⟨rfl, ?_⟩
    rw [CleanLoop, and_true, decide_eq_true rfl]
    exact (hstops true).trans (hresumes _)
  | succ m =>
    refine Or.inr (Or.inr ⟨m, rfl, not_le.mp hfull, rfl, ?_⟩)
    rw [decide_eq_false (Nat.succ_ne_zero m)]
    exact and_congr_left fun _ => (hstops false).trans (hresumes _)

/-- A key to resume after that leaves less than everything is not empty. -/
lemma ne_nil_of_rowsAfter (h : Listed listObjects objects pre delimiter limit)
    (hsplit : rowsAfter objects pre delimiter cursor = batch ++ rest) (hne : batch ≠ [])
    (ht : rowsAfter objects pre delimiter t = rest) : t ≠ [] := by
  rintro rfl
  have hle := (rowsAfter_suffix h.sorted pre delimiter cursor).length_le
  have hpos := List.length_pos_iff.mpr hne
  rw [hsplit, ht, List.length_append] at hle
  omega

/-- Rows that start like the rest are the rest. -/
lemma rowsAfter_eq_rest (h : Listed listObjects objects pre delimiter limit)
    (hsplit : rowsAfter objects pre delimiter cursor = batch ++ rest)
    (hhead : rest.head? = (rowsAfter objects pre delimiter t).head?) :
    rowsAfter objects pre delimiter t = rest := by
  refine (eq_of_suffix_of_head (nodup_rowsAfter h.sorted pre delimiter []) ?_
    (rowsAfter_suffix h.sorted pre delimiter t) hhead).symm
  refine List.IsSuffix.trans ?_ (rowsAfter_suffix h.sorted pre delimiter cursor)
  exact ⟨batch, hsplit.symm⟩

/-- A page whose batches all stop well. -/
lemma listFlatLoop_of_clean (h : Listed listObjects objects pre delimiter limit) (n : ℕ)
    (hcursor : cursor = [] ∨ pre ≤ cursor) (hroom : rows.length < limit)
    (hclean : CleanLoop objects pre delimiter limit (n + 1) cursor rows) :
    ∃ out token, listFlatLoop listObjects pre delimiter limit (n + 1) cursor rows
        = .ok ⟨rows ++ out, token⟩
      ∧ (token = none → out = rowsAfter objects pre delimiter cursor)
      ∧ ∀ t, token = some t → out ≠ [] ∧ pre ≤ fromUtf8Lossy t
        ∧ rowsAfter objects pre delimiter cursor
          = out ++ rowsAfter objects pre delimiter (fromUtf8Lossy t) := by
  induction n using Nat.strong_induction_on generalizing cursor rows with
  | _ n ih =>
    rcases listFlatLoop_cases h n hcursor hroom with
      ⟨hnil, hloop, -⟩ | ⟨batch, rest, next, hsplit, hne, hpre, hle, hcase⟩
    · exact ⟨[], none, by simpa using hloop, fun _ => hnil.symm, by simp⟩
    rcases hcase with ⟨hloop, hiff⟩ | ⟨rfl, hloop, -⟩ | ⟨m, rfl, hroom', hloop, hiff⟩
    · refine ⟨batch, some next, hloop, by simp, ?_⟩
      rintro t ⟨⟩
      exact ⟨hne, hle, by rw [(hiff.mp hclean).2, hsplit]⟩
    · exact ⟨batch, none, hloop, fun _ => by rw [hsplit, List.append_nil], by simp⟩
    · obtain ⟨⟨-, hrest⟩, hclean'⟩ := hiff.mp hclean
      obtain ⟨out, token, hout, hnone, hsome⟩ :=
        ih m (Nat.lt_succ_self m) (Or.inr hpre) hroom' hclean'
      refine ⟨batch ++ out, token, ?_, ?_, ?_⟩
      · rw [hloop, hout, List.append_assoc]
      · intro htoken
        rw [hsplit, ← hrest, hnone htoken]
      · intro t ht
        obtain ⟨-, hle', heq⟩ := hsome t ht
        refine ⟨by simp [hne], hle', ?_⟩
        rw [hsplit, ← hrest, heq, List.append_assoc]

/-- A page as the start of an exact listing: its batches all stop well, and what
follows it is exact too. -/
lemma clean_of_listFlatLoop (h : Listed listObjects objects pre delimiter limit) (n : ℕ)
    (hcursor : cursor = [] ∨ pre ≤ cursor) (hroom : rows.length < limit) :
    ∃ out token, listFlatLoop listObjects pre delimiter limit (n + 1) cursor rows
        = .ok ⟨rows ++ out, token⟩
      ∧ (∀ t, token = some t → pre ≤ fromUtf8Lossy t)
      ∧ ∀ later, (token = none → later = []) →
        (out ++ later).head? = (rowsAfter objects pre delimiter cursor).head?
        ∧ ((∀ t, token = some t → later.head?
              = (rowsAfter objects pre delimiter (fromUtf8Lossy t)).head?) →
            out ++ later = rowsAfter objects pre delimiter cursor →
            CleanLoop objects pre delimiter limit (n + 1) cursor rows
              ∧ ∀ t, token = some t →
                later = rowsAfter objects pre delimiter (fromUtf8Lossy t)) := by
  induction n using Nat.strong_induction_on generalizing cursor rows with
  | _ n ih =>
    rcases listFlatLoop_cases h n hcursor hroom with
      ⟨hnil, hloop, hclean⟩ | ⟨batch, rest, next, hsplit, hne, hpre, hle, hcase⟩
    · refine ⟨[], none, by simpa using hloop, by simp, fun later hlater => ⟨?_, ?_⟩⟩
      · rw [hlater rfl, hnil, List.append_nil]
      · exact fun _ _ => ⟨hclean, by simp⟩
    have hstart : ∀ l, (batch ++ l).head? = (rowsAfter objects pre delimiter cursor).head? := by
      intro l
      rw [hsplit, List.head?_append_of_ne_nil _ hne, List.head?_append_of_ne_nil _ hne]
    rcases hcase with ⟨hloop, hiff⟩ | ⟨rfl, hloop, hclean⟩ | ⟨m, rfl, hroom', hloop, hiff⟩
    · refine ⟨batch, some next, hloop, ?_, fun later _ => ⟨hstart later, ?_⟩⟩
      · rintro t ⟨⟩
        exact hle
      · intro hhead heq
        rw [hsplit, List.append_cancel_left_eq] at heq
        subst heq
        have hrest := rowsAfter_eq_rest h hsplit (hhead next rfl)
        refine ⟨hiff.mpr ⟨ne_nil_of_rowsAfter h hsplit hne hrest, hrest⟩, ?_⟩
        rintro t ⟨⟩
        exact hrest.symm
    · refine ⟨batch, none, hloop, by simp, fun later _ => ⟨hstart later, ?_⟩⟩
      exact fun _ _ => ⟨hclean, by simp⟩
    · obtain ⟨out, token, hout, hle', hall⟩ := ih m (Nat.lt_succ_self m) (Or.inr hpre) hroom'
      refine ⟨batch ++ out, token, ?_, hle', fun later hlater => ⟨?_, ?_⟩⟩
      · rw [hloop, hout, List.append_assoc]
      · rw [List.append_assoc]
        exact hstart _
      · intro hhead heq
        rw [List.append_assoc, hsplit, List.append_cancel_left_eq] at heq
        obtain ⟨hnext, hlast⟩ := hall later hlater
        rw [heq] at hnext
        have hrest := rowsAfter_eq_rest h hsplit hnext
        obtain ⟨hclean, htoken⟩ := hlast hhead (heq.trans hrest.symm)
        exact ⟨hiff.mpr ⟨⟨ne_nil_of_rowsAfter h hsplit hne hrest, hrest⟩, hclean⟩, htoken⟩

end Steps

/-! ## The whole listing -/

section Follow

variable {ε : Type*} {listObjects : Bytes → Bytes → ℕ → Except ε (List (Bytes × H))}
  {maxKeys : Option ℤ}

/-- In the first `n` pages, from a cursor on, every batch stops well. -/
def CleanPages (listObjects : Bytes → Bytes → ℕ → Except ε (List (Bytes × H)))
    (objects : List (Bytes × H)) (pre delimiter : Bytes) (maxKeys : Option ℤ) : ℕ → Bytes → Prop
  | 0, _ => True
  | n + 1, cursor =>
    CleanLoop objects pre delimiter (pageLimit maxKeys) MAX_BATCHES cursor []
      ∧ ∀ rows token,
        listObjectsV2 listObjects pre delimiter maxKeys (some cursor) = .ok (rows, some token) →
          CleanPages listObjects objects pre delimiter maxKeys n token

variable {cursor : Bytes}

lemma follow_of_clean (h : Listed listObjects objects pre delimiter (pageLimit maxKeys)) (m : ℕ)
    (hcursor : cursor = [] ∨ pre ≤ cursor)
    (hlen : (rowsAfter objects pre delimiter cursor).length < m)
    (hclean : ∀ n, CleanPages listObjects objects pre delimiter maxKeys n cursor) :
    follow listObjects pre delimiter maxKeys m (some cursor)
      = .ok (some (rowsAfter objects pre delimiter cursor)) := by
  induction m generalizing cursor with
  | zero => omega
  | succ m ih =>
    obtain ⟨out, token, hloop, hnone, hsome⟩ :=
      listFlatLoop_of_clean h 15 hcursor (show [].length < _ from h.limit_pos) (hclean 1).1
    have hpage : listObjectsV2 listObjects pre delimiter maxKeys (some cursor)
        = .ok (out, token.map fromUtf8Lossy) := by
      rw [listObjectsV2, listFlat, Option.getD_some, MAX_BATCHES, hloop]
      rfl
    rw [follow, hpage]
    cases token with
    | none =>
      rw [hnone rfl]
      rfl
    | some t =>
      obtain ⟨hne, hle, hsplit⟩ := hsome t rfl
      have hpos := List.length_pos_iff.mpr hne
      rw [hsplit, List.length_append] at hlen
      have hrest := ih (Or.inr hle) (by omega) fun n => (hclean (n + 1)).2 out _ hpage
      simp only [Option.map_some]
      rw [hrest, hsplit]
      rfl

lemma clean_of_follow (h : Listed listObjects objects pre delimiter (pageLimit maxKeys)) (m : ℕ)
    (hcursor : cursor = [] ∨ pre ≤ cursor) {out : List (ListRow H)}
    (hfollow : follow listObjects pre delimiter maxKeys m (some cursor) = .ok (some out)) :
    out.head? = (rowsAfter objects pre delimiter cursor).head?
      ∧ (out = rowsAfter objects pre delimiter cursor →
        ∀ n, CleanPages listObjects objects pre delimiter maxKeys n cursor) := by
  induction m generalizing cursor out with
  | zero => exact absurd hfollow (by simp [follow])
  | succ m ih =>
    obtain ⟨page, token, hloop, hle, hall⟩ :=
      clean_of_listFlatLoop h 15 hcursor (show [].length < _ from h.limit_pos)
    have hpage : listObjectsV2 listObjects pre delimiter maxKeys (some cursor)
        = .ok (page, token.map fromUtf8Lossy) := by
      rw [listObjectsV2, listFlat, Option.getD_some, MAX_BATCHES, hloop]
      rfl
    rw [follow, hpage] at hfollow
    cases token with
    | none =>
      obtain rfl : page = out := by simpa using hfollow
      obtain ⟨hhead, hclean⟩ := hall [] fun _ => rfl
      rw [List.append_nil] at hhead hclean
      refine ⟨hhead, fun heq n => ?_⟩
      cases n with
      | zero => trivial
      | succ n =>
        refine ⟨(hclean (by simp) heq).1, fun rows token htoken => ?_⟩
        rw [hpage] at htoken
        exact absurd htoken (by simp)
    | some t =>
      simp only [Option.map_some] at hfollow hpage
      cases hlater : follow listObjects pre delimiter maxKeys m (some (fromUtf8Lossy t)) with
      | error err =>
        rw [hlater] at hfollow
        exact absurd hfollow (by simp [Except.map])
      | ok rest =>
        cases rest with
        | none =>
          rw [hlater] at hfollow
          exact absurd hfollow (by simp [Except.map])
        | some later =>
          rw [hlater] at hfollow
          obtain rfl : page ++ later = out := by
            simpa [Except.map] using hfollow
          obtain ⟨hhead, hclean⟩ := hall later (by simp)
          obtain ⟨hhead', hclean'⟩ := ih (Or.inr (hle t rfl)) hlater
          refine ⟨hhead, fun heq n => ?_⟩
          obtain ⟨hloop', htoken⟩ := hclean
            (fun t' ht' => by rw [← Option.some.inj ht']; exact hhead') heq
          cases n with
          | zero => trivial
          | succ n =>
            refine ⟨hloop', fun rows token hrows => ?_⟩
            rw [hpage] at hrows
            have htok : fromUtf8Lossy t = token := by
              simpa using (Prod.ext_iff.mp (Except.ok.inj hrows)).2
            rw [← htok]
            exact hclean' (htoken t rfl) n

/-- The pages of a listing end and are exact, if and only if every batch stops well. -/
lemma follow_exact_iff (h : Listed listObjects objects pre delimiter (pageLimit maxKeys)) :
    (∃ n rows, follow listObjects pre delimiter maxKeys n none = .ok (some rows)
        ∧ Exact objects pre delimiter rows)
      ↔ ∀ n, CleanPages listObjects objects pre delimiter maxKeys n [] := by
  have hnone : ∀ n, follow listObjects pre delimiter maxKeys n none
      = follow listObjects pre delimiter maxKeys n (some []) := by
    intro n
    cases n <;> rfl
  constructor
  · rintro ⟨n, rows, hfollow, hexact⟩
    rw [hnone] at hfollow
    exact (clean_of_follow h n (Or.inl rfl) hfollow).2 ((exact_iff h.sorted).mp hexact)
  · intro hclean
    refine ⟨(rowsAfter objects pre delimiter []).length + 1, rowsAfter objects pre delimiter [],
      ?_, (exact_iff h.sorted).mpr rfl⟩
    rw [hnone]
    exact follow_of_clean h _ (Or.inl rfl) (Nat.lt_succ_self _) hclean

end Follow

end Listing

/-! ## The objects of a store -/

section Store

variable {store : MetaStore} {bucket : BucketId} {pre cursor : Bytes}

/-- The objects of a bucket, in the order of their keys. -/
def objectsOf (store : MetaStore) (bucket : BucketId) : List (Bytes × ObjectHead) :=
  (store .Meta).toList.filterMap fun e =>
    if flatKey .Meta bucket [] [] <+: e.1 then e.2.head?.map (e.1.drop 9, ·) else none

/-- Every value of the bucket's objects is a head. -/
def HoldsHeads (store : MetaStore) (bucket : BucketId) : Prop :=
  ∀ e ∈ (store .Meta).toList, flatKey .Meta bucket [] [] <+: e.1 → e.2.head?.isSome

instance (store : MetaStore) (bucket : BucketId) : Decidable (HoldsHeads store bucket) :=
  inferInstanceAs (Decidable (∀ e ∈ _, _ → _))

lemma drop_flatKey (cf : MetaCf) (bucket : BucketId) (key : Bytes) :
    (flatKey cf bucket key []).drop 9 = key := by
  rw [flatKey, List.append_nil, List.drop_succ_cons, List.drop_left' (length_be64 bucket)]

variable {k : Bytes}

variable {cf : MetaCf}

lemma exists_flatKey (h : flatKey cf bucket pre [] <+: k) :
    ∃ key, k = flatKey cf bucket key [] ∧ pre <+: key := by
  obtain ⟨t, rfl⟩ := h
  refine ⟨pre ++ t, ?_, List.prefix_append _ _⟩
  simp [flatKey]

lemma flatKey_lt_iff {k' : Bytes} :
    flatKey cf bucket k [] < flatKey cf bucket k' [] ↔ k < k' := by
  rw [flatKey, flatKey, List.append_nil, List.append_nil, List.cons_lt_cons_iff]
  simp [append_lt_append_left_iff]

/-- Which keys of the bucket a listing scans: those with the prefix and, after a `start_after`, all
up to it. -/
def Scanned (pre : Bytes) : Option Bytes → Bytes → Prop
  | none, key => pre <+: key
  | some after, key => after < key ∧ (key < pre ∨ pre <+: key)

instance (pre : Bytes) (startAfter : Option Bytes) (key : Bytes) :
    Decidable (Scanned pre startAfter key) :=
  match startAfter with
  | none => inferInstanceAs (Decidable (_ <+: _))
  | some _ => inferInstanceAs (Decidable (_ ∧ _))

lemma flatKey_lt_listEnd (key : Bytes) :
    flatKey .Meta bucket key [] < Engine.listEnd bucket pre ↔ key < pre ∨ pre <+: key := by
  obtain ⟨stop, hstop⟩ := prefixEnd_flatKey_isSome (show MetaCf.Meta ≠ .Applied by decide) bucket
    pre []
  rw [Engine.listEnd, hstop, Option.getD_some]
  rcases lt_or_ge key pre with hlt | hle
  · have hend := ((prefixEnd_spec hstop _).mpr (List.prefix_refl _)).2
    exact iff_of_true ((flatKey_lt_iff.mpr hlt).trans hend) (Or.inl hlt)
  · have hstart : flatKey .Meta bucket pre [] ≤ flatKey .Meta bucket key [] :=
      not_lt.mp fun h => not_lt.mpr hle (flatKey_lt_iff.mp h)
    have hspec := prefixEnd_spec hstop (flatKey .Meta bucket key [])
    rw [flatKey_prefix_iff, List.append_nil, List.append_nil] at hspec
    simpa [hstart, not_lt.mpr hle] using hspec

/-- A listing scans its own bucket. -/
lemma bucket_of_listEnd (hstart : flatKey .Meta bucket [] [] ≤ k)
    (hend : k < Engine.listEnd bucket pre) : flatKey .Meta bucket [] [] <+: k := by
  have hpre : flatKey .Meta bucket [] [] <+: flatKey .Meta bucket pre [] := by
    simp [flatKey_prefix_iff]
  obtain ⟨stop, hstop⟩ := prefixEnd_flatKey_isSome (show MetaCf.Meta ≠ .Applied by decide) bucket
    pre []
  rw [Engine.listEnd, hstop, Option.getD_some] at hend
  rcases lt_or_ge k (flatKey .Meta bucket pre []) with hlt | hle
  · exact prefix_of_between hstart hlt.le hpre
  · exact hpre.trans ((prefixEnd_spec hstop k).mp ⟨hle, hend⟩)

/-- What a page of the listing is scanned from. -/
lemma list_bounds_iff (startAfter : Option Bytes) (k : Bytes) :
    (Engine.listStart bucket pre startAfter ≤ k ∧ k < Engine.listEnd bucket pre)
      ↔ flatKey .Meta bucket [] [] <+: k ∧ Scanned pre startAfter (k.drop 9) := by
  have hnil : ∀ key, flatKey .Meta bucket [] [] ≤ flatKey .Meta bucket key [] :=
    fun key => prefix_le (by simp [flatKey_prefix_iff])
  cases startAfter with
  | none =>
    constructor
    · rintro ⟨hstart, hend⟩
      have hbucket := bucket_of_listEnd ((hnil pre).trans hstart) hend
      obtain ⟨key, rfl, -⟩ := exists_flatKey hbucket
      rw [drop_flatKey]
      refine ⟨hbucket, ((flatKey_lt_listEnd key).mp hend).resolve_left fun hlt => ?_⟩
      exact not_lt.mpr hstart (flatKey_lt_iff.mpr hlt)
    · rintro ⟨hbucket, hpre⟩
      obtain ⟨key, rfl, -⟩ := exists_flatKey hbucket
      rw [drop_flatKey] at hpre
      refine ⟨prefix_le ?_, (flatKey_lt_listEnd key).mpr (Or.inr hpre)⟩
      rw [Engine.listStart, flatKey_prefix_iff, List.append_nil, List.append_nil]
      exact ⟨rfl, hpre⟩
  | some after =>
    rw [Engine.listStart, ← lt_iff_succ_le]
    constructor
    · rintro ⟨hlt, hend⟩
      have hbucket := bucket_of_listEnd ((hnil after).trans hlt.le) hend
      obtain ⟨key, rfl, -⟩ := exists_flatKey hbucket
      rw [drop_flatKey]
      exact ⟨hbucket, flatKey_lt_iff.mp hlt, (flatKey_lt_listEnd key).mp hend⟩
    · rintro ⟨hbucket, hafter, hend⟩
      obtain ⟨key, rfl, -⟩ := exists_flatKey hbucket
      rw [drop_flatKey] at hafter hend
      exact ⟨flatKey_lt_iff.mpr hafter, (flatKey_lt_listEnd key).mpr hend⟩

lemma decodeHeads_of_isSome {l : List (Bytes × MetaValue)} (h : ∀ e ∈ l, e.2.head?.isSome) :
    Engine.decodeHeads l = .ok (l.filterMap fun e => e.2.head?.map (e.1.drop 9, ·)) := by
  induction l with
  | nil => rfl
  | cons e l ih =>
    obtain ⟨head, hhead⟩ := Option.isSome_iff_exists.mp (h e List.mem_cons_self)
    rw [Engine.decodeHeads, decode, hhead, ih fun x hx => h x (List.mem_cons_of_mem _ hx)]
    simp [hhead, Except.map]

/-- **What `ns_flat::list` returns**: the first objects of those it scans. -/
lemma list_eq (hheads : HoldsHeads store bucket) (startAfter : Option Bytes) (limit : ℕ) :
    store.engine.list bucket pre startAfter limit
      = .ok (((objectsOf store bucket).filter fun e => Scanned pre startAfter e.1).take limit) := by
  have hsome : ∀ e ∈ (store .Meta).range (Engine.listStart bucket pre startAfter)
      (Engine.listEnd bucket pre), e.2.head?.isSome := by
    intro e he
    obtain ⟨hget, hbounds⟩ := OrdMap.mem_range.mp he
    exact hheads e ((OrdMap.mem_toList_iff _ _ _).mpr hget) ((list_bounds_iff _ _).mp hbounds).1
  have hrange : ((store .Meta).range (Engine.listStart bucket pre startAfter)
      (Engine.listEnd bucket pre)).filterMap (fun e => e.2.head?.map (e.1.drop 9, ·))
        = (objectsOf store bucket).filter fun e => Scanned pre startAfter e.1 := by
    rw [objectsOf, OrdMap.range, List.filter_filterMap, List.filterMap_filter]
    refine List.filterMap_congr fun e _ => ?_
    simp only [decide_eq_true_eq, list_bounds_iff]
    by_cases hbucket : flatKey .Meta bucket [] [] <+: e.1
    · cases e.2.head? <;>
        by_cases hscan : Scanned pre startAfter (e.1.drop 9) <;> simp [Option.filter, hbucket, hscan]
    · simp [hbucket]
  simp only [Engine.list, MetaStore.engine, MetaStore.scan, OrdMap.scan_eq]
  rw [decodeHeads_of_isSome fun e he => hsome e (List.mem_of_mem_take he),
    filterMap_take_of_isSome (fun e he => by simpa using hsome e he), hrange]
  rfl

lemma pairwise_objectsOf (store : MetaStore) (bucket : BucketId) :
    (objectsOf store bucket).Pairwise fun a b => a.1 < b.1 := by
  refine (store .Meta).sorted.filterMap _ ?_
  intro e e' hlt x hx y hy
  split_ifs at hx hy with hbucket hbucket'
  · obtain ⟨head, -, rfl⟩ := Option.map_eq_some_iff.mp hx
    obtain ⟨head', -, rfl⟩ := Option.map_eq_some_iff.mp hy
    obtain ⟨key, hkey, -⟩ := exists_flatKey hbucket
    obtain ⟨key', hkey', -⟩ := exists_flatKey hbucket'
    rw [hkey, hkey'] at hlt ⊢
    rw [drop_flatKey, drop_flatKey]
    exact flatKey_lt_iff.mp hlt

/-- The MetaNode serves the listing. -/
lemma listed_serveList (hheads : HoldsHeads store bucket)
    (hutf : ∀ e ∈ objectsOf store bucket, IsUtf8 e.1) {delimiter : Bytes} (hpre : IsUtf8 pre)
    (hdel : IsUtf8 delimiter) (maxKeys : Option ℤ) :
    Listed (serveList store bucket) (objectsOf store bucket) pre delimiter (pageLimit maxKeys) := by
  have hlimit : 0 < pageLimit maxKeys ∧ pageLimit maxKeys ≤ LIST_MAX_LIMIT := by
    unfold pageLimit LIST_MAX_LIMIT
    omega
  refine ⟨pairwise_objectsOf store bucket, hutf, hpre, hdel, hlimit.1, fun cursor hcursor => ?_⟩
  have hclamp : max 1 (min LIST_MAX_LIMIT (pageLimit maxKeys)) = pageLimit maxKeys := by omega
  rw [serveList, hclamp, list_eq hheads, after, under, List.filter_filter]
  refine congrArg Except.ok (congrArg (List.take (pageLimit maxKeys)) ?_)
  refine List.filter_congr fun e _ => ?_
  by_cases hnil : cursor = []
  · simp [hnil, Scanned]
  · have hbelow : cursor < e.1 → ¬ e.1 < pre :=
      fun hlt => not_lt.mpr ((hcursor.resolve_left hnil).trans hlt.le)
    by_cases hlt : cursor < e.1 <;> simp [hnil, Scanned, hlt, hbelow]

end Store

/-- A bucket with the given keys. -/
def bucketOf (keys : List Bytes) : MetaStore :=
  .after [keys.map fun key => .put .Meta (flatKey .Meta 1 key []) (.Head demoHead)]

end Epoch.Gateway
