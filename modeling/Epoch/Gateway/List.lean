import Epoch.Lib.Blocks
import Epoch.Lib.Utf8
import Epoch.Meta.Store.Engines

/-!
# S3 LIST (`epoch-gateway`: `list.rs`, `http.rs`)

`fold` collapses a batch of keys into rows: an object, or a common prefix for all keys that share
it up to the first delimiter after the requested prefix.  It also says where to resume: past the
whole group when the batch ends in one, after the first key of the last row when the rows are used
up.  `listFlat` fills a page with up to 16 batches, and `listObjectsV2` makes text of the token.

`fold_spec` describes the fold through `rowOf`, the row that a key belongs to: the rows are those of
the keys, one for each run of equal ones.
-/

namespace Epoch.Gateway

/-! ## The fold -/

inductive Row
  | Key (key : Bytes)
  | CommonPrefix (group : Bytes)
deriving DecidableEq, Repr

structure Folded where
  rows : List Row
  resumeAfter : Option Bytes
deriving DecidableEq, Repr

/-- The first position of a nonempty byte string in another. -/
def find (haystack needle : Bytes) : Option ℕ :=
  if needle = [] ∨ haystack.length < needle.length then none
  else
    (List.range (haystack.length + 1 - needle.length)).find?
      fun i => (haystack.drop i).take needle.length = needle

/-- The group with its last byte below `0xFF` incremented and the bytes after it dropped, which is
the loop of `prefix_end`. -/
def upperBound (group : Bytes) : Bytes := (prefixEnd group).getD group

/-- The loop over a nonempty delimiter. -/
def foldLoop (pre delimiter : Bytes) (limit : ℕ) :
    List Bytes → List Row → Option Bytes → Option Bytes → Folded
  | [], rows, _, _ =>
    ⟨rows, match rows.getLast? with
      | some (.CommonPrefix group) => some (upperBound group)
      | _ => none⟩
  | key :: keys, rows, lastGroup, lastConsumed =>
    if pre <+: key then
      let rest := key.drop pre.length
      match find rest delimiter with
      | some pos =>
        let group := pre ++ rest.take (pos + delimiter.length)
        if lastGroup = some group then foldLoop pre delimiter limit keys rows lastGroup lastConsumed
        else if rows.length = limit then ⟨rows, lastConsumed⟩
        else
          foldLoop pre delimiter limit keys (rows ++ [.CommonPrefix group]) (some group)
            (some key)
      | none =>
        if rows.length = limit then ⟨rows, lastConsumed⟩
        else foldLoop pre delimiter limit keys (rows ++ [.Key key]) lastGroup (some key)
    else foldLoop pre delimiter limit keys rows lastGroup lastConsumed

def fold (keys : List Bytes) (pre delimiter : Bytes) (limit : ℕ) : Folded :=
  if delimiter = [] then
    ⟨(keys.take limit).map .Key, if limit < keys.length then keys[limit - 1]? else none⟩
  else foldLoop pre delimiter limit keys [] none none

/-! ## Pages -/

section Pages

variable {H : Type*}

inductive ListRow (H : Type*)
  | Object (entry : Bytes × H)
  | Prefix (group : Bytes)
deriving DecidableEq, Repr

structure ListPage (H : Type*) where
  rows : List (ListRow H)
  nextToken : Option Bytes
deriving DecidableEq, Repr

/-- The entry of an object goes back to its row. -/
def attach (entries : List (Bytes × H)) : Row → Option (ListRow H)
  | .Key key => (entries.find? fun e => e.1 = key).map .Object
  | .CommonPrefix group => some (.Prefix group)

/-- The rows of a batch, and the key to resume after. -/
def foldBatch (pre delimiter : Bytes) (budget : ℕ) (entries : List (Bytes × H)) :
    List (ListRow H) × Bytes :=
  let keys := entries.map Prod.fst
  let folded := fold keys pre delimiter budget
  (folded.rows.filterMap (attach entries),
    folded.resumeAfter.getD (keys.getLast?.getD []))

variable {ε : Type*} (listObjects : Bytes → Bytes → ℕ → Except ε (List (Bytes × H)))

/-- The batches of a page.  The bound is reached only after a batch, with its cursor as token. -/
def listFlatLoop (pre delimiter : Bytes) (limit : ℕ) :
    ℕ → Bytes → List (ListRow H) → Except ε (ListPage H)
  | 0, cursor, rows => .ok ⟨rows, some cursor⟩
  | n + 1, cursor, rows =>
    match listObjects pre cursor limit with
    | .error err => .error err
    | .ok entries =>
      if entries = [] then .ok ⟨rows, none⟩
      else
        let batch := foldBatch pre delimiter (limit - rows.length) entries
        if limit ≤ (rows ++ batch.1).length then .ok ⟨rows ++ batch.1, some batch.2⟩
        else if entries.length < limit then .ok ⟨rows ++ batch.1, none⟩
        else listFlatLoop pre delimiter limit n batch.2 (rows ++ batch.1)

def MAX_BATCHES : ℕ := 16

def listFlat (pre delimiter startAfter : Bytes) (limit : ℕ) : Except ε (ListPage H) :=
  listFlatLoop listObjects pre delimiter limit MAX_BATCHES startAfter []

/-- `max_keys`, 1000 when it is not given. -/
def pageLimit (maxKeys : Option ℤ) : ℕ := (max 1 (min 1000 (maxKeys.getD 1000))).toNat

/-- A request without `start_after`; the token becomes a string. -/
def listObjectsV2 (pre delimiter : Bytes) (maxKeys : Option ℤ) (continuationToken : Option Bytes) :
    Except ε (List (ListRow H) × Option Bytes) :=
  (listFlat listObjects pre delimiter (continuationToken.getD []) (pageLimit maxKeys)).map
    fun page => (page.rows, page.nextToken.map fromUtf8Lossy)

/-- The rows of a client that follows the tokens, when the listing ends within `n` pages. -/
def follow (pre delimiter : Bytes) (maxKeys : Option ℤ) :
    ℕ → Option Bytes → Except ε (Option (List (ListRow H)))
  | 0, _ => .ok none
  | n + 1, token =>
    match listObjectsV2 listObjects pre delimiter maxKeys token with
    | .error err => .error err
    | .ok (rows, none) => .ok (some rows)
    | .ok (rows, some token) =>
      (follow pre delimiter maxKeys n (some token)).map (Option.map (rows ++ ·))

end Pages

/-- The `LIST_MAX_LIMIT` of the MetaNode. -/
def LIST_MAX_LIMIT : ℕ := 1000

/-- `list_objects` of the MetaNode, after it has routed the request to one of its groups. -/
def serveList (store : MetaStore) (bucket : BucketId) (pre startAfter : Bytes) (limit : ℕ) :
    Except Fault (List (Bytes × ObjectHead)) :=
  store.engine.list bucket pre (if startAfter = [] then none else some startAfter)
    (max 1 (min LIST_MAX_LIMIT limit))

/-! ## What a fold returns -/

/-- The row of a key under the prefix. -/
def rowOf (pre delimiter key : Bytes) : Row :=
  match find (key.drop pre.length) delimiter with
  | some pos => .CommonPrefix (pre ++ (key.drop pre.length).take (pos + delimiter.length))
  | none => .Key key

lemma find_eq_some {haystack needle : Bytes} {i : ℕ} :
    find haystack needle = some i
      ↔ needle ≠ [] ∧ needle <+: haystack.drop i ∧ ∀ j < i, ¬ needle <+: haystack.drop j := by
  unfold find
  by_cases hnil : needle = []
  · simp [hnil]
  have hpos : 0 < needle.length := List.length_pos_iff.mpr hnil
  by_cases hlen : haystack.length < needle.length
  · rw [if_pos (Or.inr hlen)]
    refine ⟨by simp, ?_⟩
    rintro ⟨-, hpre, -⟩
    have hle := hpre.length_le
    rw [List.length_drop] at hle
    omega
  rw [if_neg (by simp [hnil, hlen]), List.find?_range_eq_some]
  simp only [← List.prefix_iff_eq_take, decide_eq_true_eq, Bool.not_eq_eq_eq_not, Bool.not_true,
    decide_eq_false_iff_not, List.mem_range, eq_comm (b := needle)]
  constructor
  · rintro ⟨hpre, -, hfirst⟩
    exact ⟨hnil, hpre, hfirst⟩
  · rintro ⟨-, hpre, hfirst⟩
    have hle := hpre.length_le
    rw [List.length_drop] at hle
    exact ⟨hpre, by omega, hfirst⟩

lemma find_nil (haystack : Bytes) : find haystack [] = none := if_pos (Or.inl rfl)

section Rows

variable {pre delimiter key key' group : Bytes}

lemma rowOf_eq_key {k : Bytes} (h : rowOf pre delimiter key = .Key k) : k = key := by
  unfold rowOf at h
  split at h
  · exact Row.noConfusion h
  · exact (Row.Key.inj h).symm

/-- A group is the prefix, and what comes up to the first delimiter. -/
lemma rowOf_eq_group_iff (hpre : pre <+: key) :
    rowOf pre delimiter key = .CommonPrefix group
      ↔ ∃ mid, group = pre ++ (mid ++ delimiter) ∧ group <+: key
        ∧ find (mid ++ delimiter) delimiter = some mid.length := by
  obtain ⟨rest, rfl⟩ := hpre
  unfold rowOf
  rw [List.drop_left]
  constructor
  · intro h
    split at h
    · rename_i pos hfind
      obtain ⟨hnil, hdel, hfirst⟩ := find_eq_some.mp hfind
      have hlen := hdel.length_le
      have hpos := List.length_pos_iff.mpr hnil
      rw [List.length_drop] at hlen
      have hgroup : rest.take (pos + delimiter.length) = rest.take pos ++ delimiter := by
        rw [List.take_add, ← List.prefix_iff_eq_take.mp hdel]
      rw [hgroup] at h
      refine ⟨rest.take pos, (Row.CommonPrefix.inj h).symm, ?_, ?_⟩
      · rw [← Row.CommonPrefix.inj h, ← hgroup]
        exact (List.prefix_append_right_inj _).mpr (List.take_prefix _ _)
      · have htake : (rest.take pos).length = pos := by
          rw [List.length_take]
          omega
        rw [htake, find_eq_some]
        refine ⟨hnil, ?_, ?_⟩
        · rw [List.drop_append_of_le_length htake.ge, List.drop_of_length_le htake.le]
          exact List.prefix_refl _
        · intro j hj hpre
          refine hfirst j hj (hpre.trans ?_)
          rw [← hgroup]
          exact (List.take_prefix _ _).drop j
    · exact Row.noConfusion h
  · rintro ⟨mid, rfl, hgroup, hfind⟩
    obtain ⟨t, rfl⟩ := (List.prefix_append_right_inj _).mp hgroup
    obtain ⟨hnil, -, hfirst⟩ := find_eq_some.mp hfind
    have hpos : find (mid ++ delimiter ++ t) delimiter = some mid.length := by
      refine find_eq_some.mpr ⟨hnil, ?_, ?_⟩
      · rw [List.append_assoc, List.drop_left]
        exact List.prefix_append _ _
      · intro j hj hpre
        refine hfirst j hj ?_
        rw [List.drop_append_of_le_length (by rw [List.length_append]; omega)] at hpre
        refine List.prefix_of_prefix_length_le hpre (List.prefix_append _ _) ?_
        rw [List.length_drop, List.length_append]
        omega
    rw [hpos]
    simp only
    rw [← List.length_append, List.take_left]

/-- All keys that carry a group belong to it. -/
lemma rowOf_eq_of_carries (hpre : pre <+: key) (hpre' : pre <+: key')
    (h : rowOf pre delimiter key = .CommonPrefix group) (hgroup : group <+: key') :
    rowOf pre delimiter key' = .CommonPrefix group := by
  obtain ⟨mid, heq, -, hfind⟩ := (rowOf_eq_group_iff hpre).mp h
  exact (rowOf_eq_group_iff hpre').mpr ⟨mid, heq, hgroup, hfind⟩

lemma prefix_of_group (hpre : pre <+: key) (h : rowOf pre delimiter key = .CommonPrefix group) :
    group <+: key := by
  obtain ⟨mid, -, hgroup, -⟩ := (rowOf_eq_group_iff hpre).mp h
  exact hgroup

lemma group_ne_nil (hpre : pre <+: key) (h : rowOf pre delimiter key = .CommonPrefix group) :
    group ≠ [] := by
  obtain ⟨mid, rfl, -, hfind⟩ := (rowOf_eq_group_iff hpre).mp h
  simp [(find_eq_some.mp hfind).1]

/-- A byte string between a string and one of its extensions is an extension too. -/
lemma prefix_of_between {p k k' : Bytes} (hp : p ≤ k) (hk : k ≤ k') (hpre : p <+: k') : p <+: k := by
  obtain ⟨t, rfl⟩ := hpre
  by_contra hnot
  have hne : p ≠ k := by
    rintro rfl
    exact hnot (List.prefix_refl p)
  have hlt := append_lt_of_not_prefix t (lt_of_le_of_ne hp hne) hnot
  exact absurd hlt (not_lt.mpr hk)

lemma prefix_le {p k : Bytes} (h : p <+: k) : p ≤ k := by
  obtain ⟨t, rfl⟩ := h
  have hle := (append_le_append_left_iff p [] t).mpr (nil_le t)
  rwa [List.append_nil] at hle

def Row.name : Row → Bytes
  | .Key key => key
  | .CommonPrefix group => group

/-- Rows come in the order of their keys. -/
lemma rowOf_eq_or_lt (delimiter : Bytes) (hpre : pre <+: key) (hpre' : pre <+: key') (hlt : key < key') :
    rowOf pre delimiter key = rowOf pre delimiter key'
      ∨ (rowOf pre delimiter key).name < (rowOf pre delimiter key').name := by
  have hname : (rowOf pre delimiter key).name ≤ key := by
    cases hrow : rowOf pre delimiter key with
    | Key k => exact (rowOf_eq_key hrow).le
    | CommonPrefix g => exact prefix_le (prefix_of_group hpre hrow)
  cases hrow' : rowOf pre delimiter key' with
  | Key k =>
    right
    rw [rowOf_eq_key hrow']
    exact lt_of_le_of_lt hname hlt
  | CommonPrefix g =>
    by_cases hg : g <+: key
    · exact Or.inl (rowOf_eq_of_carries hpre' hpre hrow' hg)
    · right
      refine lt_of_le_of_lt hname (not_le.mp fun hle => hg ?_)
      exact prefix_of_between hle hlt.le (prefix_of_group hpre' hrow')

end Rows

section Fold

variable {pre delimiter : Bytes} {limit : ℕ}

/-- The rows are the runs of the keys' rows, up to the budget.  Where the budget ends the page is
resumed after the first key of its last row, else past a group, or after the last key. -/
structure FoldSpec (pre delimiter : Bytes) (limit : ℕ) (keys : List Bytes) (folded : Folded) :
    Prop where
  rows : folded.rows = (blocks (keys.map (rowOf pre delimiter))).take limit
  cut : limit < (blocks (keys.map (rowOf pre delimiter))).length →
    ∃ t ∈ keys, folded.resumeAfter = some t
      ∧ folded.rows.getLast? = some (rowOf pre delimiter t)
      ∧ ∀ k ∈ keys, rowOf pre delimiter k = rowOf pre delimiter t → t ≤ k
  whole : (blocks (keys.map (rowOf pre delimiter))).length ≤ limit →
    folded.resumeAfter = match (keys.map (rowOf pre delimiter)).getLast? with
      | some (.CommonPrefix group) => some (upperBound group)
      | _ => none

/-- The fold stops at a key that needs a row of its own. -/
lemma foldSpec_stop {done todo : List Bytes} {key t : Bytes}
    (hsorted : (done ++ key :: todo).Pairwise (· < ·)) (ht : t ∈ done)
    (hfirst : ∀ k ∈ done, rowOf pre delimiter k = rowOf pre delimiter t → t ≤ k)
    (hlast : (done.map (rowOf pre delimiter)).getLast? = some (rowOf pre delimiter t))
    (hne : rowOf pre delimiter t ≠ rowOf pre delimiter key)
    (hlen : (blocks (done.map (rowOf pre delimiter))).length = limit) :
    FoldSpec pre delimiter limit (done ++ key :: todo)
      ⟨blocks (done.map (rowOf pre delimiter)), some t⟩ := by
  have hinit : blocks (done.map (rowOf pre delimiter)) ++ [rowOf pre delimiter key]
      <+: blocks ((done ++ key :: todo).map (rowOf pre delimiter)) := by
    have hconcat := blocks_concat (done.map (rowOf pre delimiter)) (rowOf pre delimiter key)
    rw [if_neg (by rw [hlast]; simpa using hne)] at hconcat
    rw [← hconcat]
    refine blocks_prefix ⟨todo.map (rowOf pre delimiter), ?_⟩
    simp
  obtain ⟨more, hmore⟩ := hinit
  have hrows : (blocks ((done ++ key :: todo).map (rowOf pre delimiter))).take limit
      = blocks (done.map (rowOf pre delimiter)) := by
    rw [← hmore, List.append_assoc, ← hlen, List.take_left]
  refine ⟨hrows.symm, ?_, ?_⟩
  · intro _
    refine ⟨t, List.mem_append_left _ ht, rfl, (getLast?_blocks _).trans hlast, ?_⟩
    intro k hk hrow
    rcases List.mem_append.mp hk with hk | hk
    · exact hfirst k hk hrow
    · exact ((List.pairwise_append.mp hsorted).2.2 t ht k hk).le
  · intro hle
    rw [← hmore] at hle
    simp only [List.length_append, List.length_cons, List.length_nil] at hle
    omega

/-- A row between two keys of one row is that row. -/
lemma rowOf_last_eq {done todo : List Bytes} {k key t : Bytes}
    (hpre : ∀ k ∈ done ++ key :: todo, pre <+: k)
    (hsorted : (done ++ key :: todo).Pairwise (· < ·))
    (hlast : (done.map (rowOf pre delimiter)).getLast? = some (rowOf pre delimiter t))
    (hk : k ∈ done) (hrow : rowOf pre delimiter k = rowOf pre delimiter key) :
    rowOf pre delimiter t = rowOf pre delimiter key := by
  rw [List.getLast?_map] at hlast
  obtain ⟨l, hl, hlt⟩ := Option.map_eq_some_iff.mp hlast
  rw [← hlt]
  obtain ⟨init, rfl⟩ := List.getLast?_eq_some_iff.mp hl
  have hlkey : l < key := (List.pairwise_append.mp hsorted).2.2 l (by simp) key List.mem_cons_self
  have hpreOf : ∀ k ∈ init ++ [l], pre <+: k := fun k hk => hpre k (List.mem_append_left _ hk)
  rcases List.mem_append.mp hk with hinit | hsingle
  swap
  · rw [← List.mem_singleton.mp hsingle]
    exact hrow
  have hkl : k < l := by
    have hdone := (List.pairwise_append.mp hsorted).1
    exact (List.pairwise_append.mp hdone).2.2 k hinit l List.mem_cons_self
  cases hkrow : rowOf pre delimiter k with
  | Key k' =>
    have hkey : k = key := by
      rw [← rowOf_eq_key hkrow, ← rowOf_eq_key (hrow.symm.trans hkrow)]
    exact absurd hkey (hkl.trans hlkey).ne
  | CommonPrefix g =>
    have hg := prefix_of_group (hpreOf k hk) hkrow
    have hg' := prefix_of_group (hpre key (by simp)) (hrow.symm.trans hkrow)
    have hgl : g <+: l :=
      prefix_of_between ((prefix_le hg).trans hkl.le) hlkey.le hg'
    rw [rowOf_eq_of_carries (hpreOf k hk) (hpreOf l (by simp)) hkrow hgl, ← hkrow, hrow]

lemma foldLoop_spec {done todo : List Bytes} {t : Bytes} {lastGroup : Option Bytes}
    (hpre : ∀ k ∈ done ++ todo, pre <+: k) (hsorted : (done ++ todo).Pairwise (· < ·))
    (ht : t ∈ done)
    (hfirst : ∀ k ∈ done, rowOf pre delimiter k = rowOf pre delimiter t → t ≤ k)
    (hlast : (done.map (rowOf pre delimiter)).getLast? = some (rowOf pre delimiter t))
    (hlen : (blocks (done.map (rowOf pre delimiter))).length ≤ limit)
    (hgroup : ∀ g, lastGroup = some g → Row.CommonPrefix g ∈ done.map (rowOf pre delimiter))
    (hgroup' : ∀ g, rowOf pre delimiter t = .CommonPrefix g → lastGroup = some g) :
    FoldSpec pre delimiter limit (done ++ todo)
      (foldLoop pre delimiter limit todo (blocks (done.map (rowOf pre delimiter))) lastGroup
        (some t)) := by
  induction todo generalizing done t lastGroup with
  | nil =>
    rw [List.append_nil]
    refine ⟨?_, ?_, ?_⟩
    · exact (List.take_of_length_le hlen).symm
    · intro hlt
      exact absurd hlen (not_le.mpr hlt)
    · intro _
      show (match (blocks (done.map (rowOf pre delimiter))).getLast? with
        | some (.CommonPrefix group) => some (upperBound group)
        | _ => none) = _
      rw [getLast?_blocks]
  | cons key todo ih =>
    have hkey : pre <+: key := hpre key (by simp)
    have hdone : ∀ k ∈ done, k < key := fun k hk =>
      (List.pairwise_append.mp hsorted).2.2 k hk key List.mem_cons_self
    have happ : done ++ key :: todo = (done ++ [key]) ++ todo := by simp
    have hconcat := blocks_concat (done.map (rowOf pre delimiter)) (rowOf pre delimiter key)
    rw [hlast] at hconcat
    -- the key starts a new row, for which there is room
    have hnew : ∀ lastGroup', rowOf pre delimiter t ≠ rowOf pre delimiter key →
        (blocks (done.map (rowOf pre delimiter))).length ≠ limit →
        (∀ g, lastGroup' = some g →
          Row.CommonPrefix g ∈ (done ++ [key]).map (rowOf pre delimiter)) →
        (∀ g, rowOf pre delimiter key = .CommonPrefix g → lastGroup' = some g) →
        FoldSpec pre delimiter limit (done ++ key :: todo)
          (foldLoop pre delimiter limit todo
            (blocks (done.map (rowOf pre delimiter)) ++ [rowOf pre delimiter key]) lastGroup'
            (some key)) := by
      intro lastGroup' hne hroom hg hg'
      have hfirst' : ∀ k ∈ done ++ [key],
          rowOf pre delimiter k = rowOf pre delimiter key → key ≤ k := by
        intro k hk hrow
        rcases List.mem_append.mp hk with hk | hk
        · exact absurd (rowOf_last_eq hpre hsorted hlast hk hrow) hne
        · rw [List.mem_singleton.mp hk]
      rw [if_neg (by simpa using hne)] at hconcat
      rw [happ] at hpre hsorted ⊢
      rw [← hconcat, show done.map (rowOf pre delimiter) ++ [rowOf pre delimiter key]
        = (done ++ [key]).map (rowOf pre delimiter) by simp]
      refine ih hpre hsorted (by simp) hfirst' (by simp) ?_ hg hg'
      rw [List.map_append, List.map_singleton, hconcat, List.length_append,
        List.length_singleton]
      omega
    rw [foldLoop, if_pos hkey]
    simp only
    cases hfind : find (key.drop pre.length) delimiter with
    | some pos =>
      have hrow : rowOf pre delimiter key
          = .CommonPrefix (pre ++ (key.drop pre.length).take (pos + delimiter.length)) := by
        unfold rowOf
        rw [hfind]
      simp only
      by_cases hsame : lastGroup
          = some (pre ++ (key.drop pre.length).take (pos + delimiter.length))
      · rw [if_pos hsame]
        -- a row between two keys of the group is the group's
        obtain ⟨k, hk, hkrow⟩ := List.mem_map.mp (hgroup _ hsame)
        have heq : rowOf pre delimiter t = rowOf pre delimiter key :=
          rowOf_last_eq hpre hsorted hlast hk (hkrow.trans hrow.symm)
        rw [if_pos (by rw [heq])] at hconcat
        rw [happ] at hpre hsorted ⊢
        rw [← hconcat, show done.map (rowOf pre delimiter) ++ [rowOf pre delimiter key]
          = (done ++ [key]).map (rowOf pre delimiter) by simp]
        have hfirst' : ∀ k ∈ done ++ [key],
            rowOf pre delimiter k = rowOf pre delimiter t → t ≤ k := by
          intro k hk hkt
          rcases List.mem_append.mp hk with hk | hk
          · exact hfirst k hk hkt
          · rw [List.mem_singleton.mp hk]
            exact (hdone t ht).le
        refine ih hpre hsorted (List.mem_append_left _ ht) hfirst' (by simp [heq]) ?_ ?_ hgroup'
        · rw [List.map_append, List.map_singleton, hconcat]
          exact hlen
        · intro g hg
          rw [List.map_append]
          exact List.mem_append_left _ (hgroup g hg)
      · rw [if_neg hsame]
        have hne : rowOf pre delimiter t ≠ rowOf pre delimiter key := by
          intro heq
          exact hsame (hgroup' _ (heq.trans hrow))
        by_cases hfull : (blocks (done.map (rowOf pre delimiter))).length = limit
        · rw [if_pos hfull]
          exact foldSpec_stop hsorted ht hfirst hlast hne hfull
        · rw [if_neg hfull, ← hrow]
          refine hnew _ hne hfull ?_ ?_
          · intro g hg
            rw [List.map_append, List.map_singleton, hrow, ← Option.some.inj hg]
            simp
          · intro g hg
            rw [hrow] at hg
            rw [Row.CommonPrefix.inj hg]
    | none =>
      have hrow : rowOf pre delimiter key = .Key key := by
        unfold rowOf
        rw [hfind]
      have hne : rowOf pre delimiter t ≠ rowOf pre delimiter key := by
        intro heq
        rw [hrow] at heq
        exact absurd (rowOf_eq_key heq).symm (hdone t ht).ne
      simp only
      by_cases hfull : (blocks (done.map (rowOf pre delimiter))).length = limit
      · rw [if_pos hfull]
        exact foldSpec_stop hsorted ht hfirst hlast hne hfull
      · rw [if_neg hfull, ← hrow]
        refine hnew _ hne hfull ?_ ?_
        · intro g hg
          rw [List.map_append]
          exact List.mem_append_left _ (hgroup g hg)
        · intro g hg
          rw [hrow] at hg
          exact Row.noConfusion hg

/-- What `fold` returns on a batch of keys under the prefix. -/
theorem fold_spec (delimiter : Bytes) {keys : List Bytes} (hpre : ∀ k ∈ keys, pre <+: k)
    (hsorted : keys.Pairwise (· < ·)) (hlimit : 0 < limit) :
    FoldSpec pre delimiter limit keys (fold keys pre delimiter limit) := by
  unfold fold
  by_cases hdel : delimiter = []
  · subst hdel
    have hrow : ∀ k, rowOf pre [] k = .Key k := fun k => by rw [rowOf, find_nil]
    have hrows : keys.map (rowOf pre []) = keys.map .Key := List.map_congr_left fun k _ => hrow k
    have hblocks : blocks (keys.map Row.Key) = keys.map .Key := by
      refine List.destutter_of_isChain _ _ (List.Pairwise.isChain ?_)
      exact List.pairwise_map.mpr (hsorted.imp fun hlt heq => hlt.ne (Row.Key.inj heq))
    rw [if_pos rfl]
    refine ⟨?_, ?_, ?_⟩
    · rw [hrows, hblocks, List.map_take]
    · rw [hrows, hblocks, List.length_map]
      intro hlt
      have hlast : (keys.take limit).getLast? = some keys[limit - 1] := by
        rw [List.getLast?_take, if_neg (by omega), List.getElem?_eq_getElem (by omega)]
        rfl
      refine ⟨keys[limit - 1], List.getElem_mem _, ?_, ?_, ?_⟩
      · rw [if_pos hlt, List.getElem?_eq_getElem]
      · rw [hrow, List.getLast?_map, hlast]
        rfl
      · intro k _ hk
        rw [hrow, hrow] at hk
        exact (Row.Key.inj hk).ge
    · rw [hrows, hblocks, List.length_map]
      intro hle
      rw [if_neg (not_lt.mpr hle), List.getLast?_map]
      cases keys.getLast? with
      | none => rfl
      | some k => rfl
  rw [if_neg hdel]
  cases keys with
  | nil =>
    refine ⟨by simp [foldLoop], by simp, ?_⟩
    intro _
    rfl
  | cons key keys =>
    have hstart : ∀ lastGroup,
        (∀ g, lastGroup = some g →
          Row.CommonPrefix g ∈ [key].map (rowOf pre delimiter)) →
        (∀ g, rowOf pre delimiter key = .CommonPrefix g → lastGroup = some g) →
        FoldSpec pre delimiter limit ([key] ++ keys)
          (foldLoop pre delimiter limit keys [rowOf pre delimiter key] lastGroup (some key)) :=
      fun lastGroup hg hg' =>
        foldLoop_spec hpre hsorted List.mem_cons_self (by simp) rfl hlimit hg hg'
    have hempty : ([] : List Row).length ≠ limit := hlimit.ne
    rw [foldLoop, if_pos (hpre key List.mem_cons_self)]
    simp only
    cases hfind : find (key.drop pre.length) delimiter with
    | some pos =>
      have hrow : rowOf pre delimiter key
          = .CommonPrefix (pre ++ (key.drop pre.length).take (pos + delimiter.length)) := by
        unfold rowOf
        rw [hfind]
      simp only [if_neg hempty, List.nil_append, ← hrow]
      refine hstart _ ?_ ?_
      · intro g hg
        rw [List.map_singleton, hrow, ← Option.some.inj hg]
        exact List.mem_cons_self
      · intro g hg
        rw [hrow] at hg
        rw [Row.CommonPrefix.inj hg]
    | none =>
      have hrow : rowOf pre delimiter key = .Key key := by
        unfold rowOf
        rw [hfind]
      simp only [if_neg hempty, List.nil_append, ← hrow]
      refine hstart _ (by simp) ?_
      intro g hg
      rw [hrow] at hg
      exact Row.noConfusion hg

end Fold

end Epoch.Gateway
