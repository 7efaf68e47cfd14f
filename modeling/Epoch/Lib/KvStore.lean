import Epoch.Lib.OrdMap

/-!
# Column families, atomic batches and paged scans

A `KvStore` is one ordered map per column family, written by batches that span families.  The
families do not interact: what a batch does to one of them is `writeAll` of the batch's share in
it (`applyBatch_cf`), so a reader of a batch only ever has to compute `on c ops`.

Reads are point lookups and ordered scans.  A scan returns at most `limit` bindings, so callers
that want a whole interval loop, resuming just past the last key of the previous page.
`scanAll` is that loop and `scanAll_eq_range` says that it collects the interval, whatever the
page size, provided the resume position is the key's immediate successor.
-/

namespace Epoch

section Scan

variable {κ ν : Type*} [LinearOrder κ]

namespace OrdMap

/-- The bindings with `start ≤ key < stop`, in key order. -/
def range (m : OrdMap κ ν) (start stop : κ) : List (κ × ν) :=
  m.toList.filter fun e => start ≤ e.1 ∧ e.1 < stop

/-- One page: seek to `start`, walk forward until `stop` or until the page is full. -/
def scan (m : OrdMap κ ν) (start stop : κ) (limit : ℕ) : List (κ × ν) :=
  ((m.toList.dropWhile fun e => e.1 < start).takeWhile fun e => e.1 < stop).take limit

/-- Seek to `start` and walk forward until `stop`. -/
def seek (m : OrdMap κ ν) (start stop : κ) : List (κ × ν) :=
  (m.toList.dropWhile fun e => e.1 < start).takeWhile fun e => e.1 < stop

/-- The page loop, resuming at `next last` after each page. -/
def scanLoop (m : OrdMap κ ν) (next : κ → κ) (stop : κ) (limit : ℕ) : ℕ → κ → List (κ × ν)
  | 0, _ => []
  | fuel + 1, cursor =>
    match (m.scan cursor stop limit).getLast? with
    | none => []
    | some last => m.scan cursor stop limit ++ scanLoop m next stop limit fuel (next last.1)

/-- Every page leaves fewer bindings ahead, so one more round than there are bindings is enough. -/
def scanAll (m : OrdMap κ ν) (next : κ → κ) (start stop : κ) (limit : ℕ) : List (κ × ν) :=
  m.scanLoop next stop limit (m.toList.length + 1) start

lemma dropWhile_lt_eq_filter (start : κ) {l : List (κ × ν)}
    (h : l.Pairwise fun a b => a.1 < b.1) :
    l.dropWhile (fun e => e.1 < start) = l.filter fun e => start ≤ e.1 := by
  induction l with
  | nil => rfl
  | cons c l ih =>
    rw [List.pairwise_cons] at h
    by_cases hc : c.1 < start
    · simp [hc, not_le.mpr hc, ih h.2]
    · have hall : ∀ e ∈ l, start ≤ e.1 := fun e he => (not_lt.mp hc).trans (h.1 e he).le
      simp [hc, not_lt.mp hc]
      symm
      exact List.filter_eq_self.mpr fun e he => by simpa using hall e he

lemma takeWhile_lt_eq_filter (stop : κ) {l : List (κ × ν)}
    (h : l.Pairwise fun a b => a.1 < b.1) :
    l.takeWhile (fun e => e.1 < stop) = l.filter fun e => e.1 < stop := by
  induction l with
  | nil => rfl
  | cons c l ih =>
    rw [List.pairwise_cons] at h
    by_cases hc : c.1 < stop
    · simp [hc, ih h.2]
    · have hall : ∀ e ∈ l, ¬ e.1 < stop :=
        fun e he => not_lt.mpr ((not_lt.mp hc).trans (h.1 e he).le)
      simp [hc]
      intro a b hab
      simpa using hall _ hab

lemma seek_eq_range (m : OrdMap κ ν) (start stop : κ) :
    m.seek start stop = m.range start stop := by
  rw [seek, dropWhile_lt_eq_filter start m.sorted,
    takeWhile_lt_eq_filter stop (m.sorted.filter _), List.filter_filter, range]
  congr 1
  funext e
  rw [Bool.and_comm]
  simp

lemma scan_eq (m : OrdMap κ ν) (start stop : κ) (limit : ℕ) :
    m.scan start stop limit = (m.range start stop).take limit :=
  congrArg (List.take limit) (m.seek_eq_range start stop)

lemma mem_range {m : OrdMap κ ν} {start stop : κ} {e : κ × ν} :
    e ∈ m.range start stop ↔ m.get e.1 = some e.2 ∧ start ≤ e.1 ∧ e.1 < stop := by
  rw [range, List.mem_filter, ← mem_toList_iff]
  simp

/-- In key order, the bindings past the last key of a page are those the page left out. -/
lemma filter_lt_eq_drop [DecidableLT κ] {l : List (κ × ν)}
    (hsorted : l.Pairwise fun a b => a.1 < b.1) {limit : ℕ} {last : κ × ν}
    (hlast : (l.take limit).getLast? = some last) :
    l.filter (fun e => last.1 < e.1) = l.drop limit := by
  obtain ⟨init, hinit⟩ := List.getLast?_eq_some_iff.mp hlast
  rw [← List.take_append_drop limit l, List.pairwise_append] at hsorted
  obtain ⟨htake, -, hcross⟩ := hsorted
  nth_rewrite 1 [← List.take_append_drop limit l]
  rw [List.filter_append, List.filter_eq_nil_iff.mpr, List.nil_append, List.filter_eq_self.mpr]
  · intro e he
    simpa using hcross last (List.mem_of_getLast? hlast) e he
  · intro e he
    rw [hinit, List.pairwise_append] at htake
    rw [hinit] at he
    simp only [decide_eq_true_eq, not_lt]
    rcases List.mem_append.mp he with he | he
    · exact (htake.2.2 e he last (by simp)).le
    · rw [List.mem_singleton.mp he]

lemma range_next_eq_drop {m : OrdMap κ ν} {next : κ → κ} (hnext : ∀ a b, a < b ↔ next a ≤ b)
    {start stop : κ} {limit : ℕ} {last : κ × ν}
    (hlast : ((m.range start stop).take limit).getLast? = some last) :
    m.range (next last.1) stop = (m.range start stop).drop limit := by
  have hstart := (mem_range.mp (List.mem_of_mem_take (List.mem_of_getLast? hlast))).2.1
  have hsorted : (m.range start stop).Pairwise fun a b => a.1 < b.1 := m.sorted.filter _
  rw [← filter_lt_eq_drop hsorted hlast, range, range, List.filter_filter]
  congr 1
  funext e
  simp only [← hnext, ← Bool.decide_and, decide_eq_decide]
  exact ⟨fun h => ⟨h.1, hstart.trans h.1.le, h.2⟩, fun h => ⟨h.1, h.2.2⟩⟩

lemma scanLoop_eq_range {m : OrdMap κ ν} {next : κ → κ} (hnext : ∀ a b, a < b ↔ next a ≤ b)
    {stop : κ} {limit : ℕ} (hlimit : 0 < limit) (fuel : ℕ) (cursor : κ)
    (hfuel : (m.range cursor stop).length < fuel) :
    m.scanLoop next stop limit fuel cursor = m.range cursor stop := by
  induction fuel generalizing cursor with
  | zero => omega
  | succ fuel ih =>
    rw [scanLoop, scan_eq]
    cases hlast : ((m.range cursor stop).take limit).getLast? with
    | none =>
      rw [List.getLast?_eq_none_iff, List.take_eq_nil_iff] at hlast
      rcases hlast with h | h
      · omega
      · exact h.symm
    | some last =>
      have hdrop := range_next_eq_drop hnext hlast
      have hlen : (m.range (next last.1) stop).length < fuel := by
        have hne : m.range cursor stop ≠ [] := by
          intro hnil
          rw [hnil] at hlast
          simp at hlast
        have hpos := List.length_pos_iff.mpr hne
        rw [hdrop, List.length_drop]
        omega
      simp only
      rw [ih _ hlen, hdrop, List.take_append_drop]

/-- The page loop collects the whole interval. -/
theorem scanAll_eq_range (m : OrdMap κ ν) {next : κ → κ} (hnext : ∀ a b, a < b ↔ next a ≤ b)
    (start stop : κ) {limit : ℕ} (hlimit : 0 < limit) :
    m.scanAll next start stop limit = m.range start stop := by
  refine scanLoop_eq_range hnext hlimit _ _ ?_
  exact Nat.lt_succ_of_le (List.length_filter_le _ _)

end OrdMap

end Scan

/-! ## Stores -/

/-- One put (`some`) or delete (`none`) in one column family. -/
structure WriteOp (χ κ ν : Type*) where
  cf : χ
  key : κ
  value : Option ν
deriving DecidableEq, Repr

namespace WriteOp

variable {χ κ ν : Type*}

def put (cf : χ) (key : κ) (value : ν) : WriteOp χ κ ν := ⟨cf, key, some value⟩

def delete (cf : χ) (key : κ) : WriteOp χ κ ν := ⟨cf, key, none⟩

end WriteOp

namespace KvStore

section Share

variable {χ κ ν : Type*} [DecidableEq χ]

/-- The share of a batch that falls into family `c`, in batch order. -/
def on (c : χ) (ops : List (WriteOp χ κ ν)) : List (κ × Option ν) :=
  ops.filterMap fun op => if op.cf = c then some (op.key, op.value) else none

@[simp] lemma on_nil (c : χ) : on c ([] : List (WriteOp χ κ ν)) = [] := rfl

@[simp] lemma on_append (c : χ) (ops ops' : List (WriteOp χ κ ν)) :
    on c (ops ++ ops') = on c ops ++ on c ops' := List.filterMap_append

@[simp] lemma on_cons (c : χ) (op : WriteOp χ κ ν) (ops : List (WriteOp χ κ ν)) :
    on c (op :: ops) = (if op.cf = c then [(op.key, op.value)] else []) ++ on c ops := by
  by_cases h : op.cf = c <;> simp [on, h]

lemma mem_on {c : χ} {ops : List (WriteOp χ κ ν)} {w : κ × Option ν} :
    w ∈ on c ops ↔ (⟨c, w.1, w.2⟩ : WriteOp χ κ ν) ∈ ops := by
  rw [on, List.mem_filterMap]
  constructor
  · rintro ⟨op, hop, h⟩
    split_ifs at h with hc
    subst hc
    rw [Option.some.injEq] at h
    subst h
    exact hop
  · intro h
    exact ⟨_, h, by simp⟩

end Share

end KvStore

variable {χ κ ν : Type*} [LinearOrder κ]

/-- One ordered map per column family. -/
abbrev KvStore (χ κ ν : Type*) [LinearOrder κ] := χ → OrdMap κ ν

namespace KvStore

def empty : KvStore χ κ ν := fun _ => OrdMap.empty

variable [DecidableEq χ]

def applyOp (s : KvStore χ κ ν) (op : WriteOp χ κ ν) : KvStore χ κ ν :=
  fun c => if op.cf = c then (s c).write (op.key, op.value) else s c

/-- Run a batch in order. -/
def applyBatch (s : KvStore χ κ ν) (ops : List (WriteOp χ κ ν)) : KvStore χ κ ν :=
  ops.foldl applyOp s

/-- A batch acts on each family through its share there. -/
theorem applyBatch_cf (s : KvStore χ κ ν) (ops : List (WriteOp χ κ ν)) (c : χ) :
    s.applyBatch ops c = (s c).writeAll (on c ops) := by
  induction ops generalizing s with
  | nil => rfl
  | cons op ops ih =>
    have hstep : s.applyBatch (op :: ops) = (s.applyOp op).applyBatch ops := rfl
    rw [hstep, ih, on_cons, OrdMap.writeAll_append]
    by_cases h : op.cf = c
    · simp [applyOp, h, OrdMap.writeAll_cons]
    · simp [applyOp, h]

@[simp] lemma applyBatch_nil (s : KvStore χ κ ν) : s.applyBatch [] = s := rfl

/-- A family the batch does not name is untouched. -/
lemma applyBatch_of_on_eq_nil {s : KvStore χ κ ν} {ops : List (WriteOp χ κ ν)} {c : χ}
    (h : on c ops = []) : s.applyBatch ops c = s c := by
  rw [applyBatch_cf, h, OrdMap.writeAll_nil]

end KvStore

end Epoch
