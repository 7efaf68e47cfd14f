import Epoch.Lib.KvStore

/-!
# The standard library's B-tree map, as far as its callers can tell

Contents are an ordered map.  What a caller can observe beyond them is `range` panicking on inverted
bounds.  It does so only when there is a tree to search: the first insertion allocates the root node
and no removal gives it back, so `rooted` is not the same as non-emptiness.
-/

namespace Epoch

/-- A B-tree map: its bindings, and whether a root node was ever allocated. -/
structure BTreeMap (κ ν : Type*) [LinearOrder κ] where
  entries : OrdMap κ ν
  rooted : Bool
  entries_of_rootless : rooted = false → entries = OrdMap.empty

namespace BTreeMap

variable {κ ν : Type*} [LinearOrder κ]

def empty : BTreeMap κ ν := ⟨OrdMap.empty, false, fun _ => rfl⟩

def insert (m : BTreeMap κ ν) (k : κ) (v : ν) : BTreeMap κ ν :=
  ⟨m.entries.write (k, some v), true, fun h => by cases h⟩

def remove (m : BTreeMap κ ν) (k : κ) : BTreeMap κ ν where
  entries := m.entries.write (k, none)
  rooted := m.rooted
  entries_of_rootless h := by
    rw [m.entries_of_rootless h]
    rfl

/-- The bindings of `[start, stop)`; `none` is the panic on `stop < start`. -/
def range (m : BTreeMap κ ν) (start stop : κ) : Option (List (κ × ν)) :=
  if m.rooted then
    if stop < start then none else some (m.entries.range start stop)
  else some []

lemma range_of_ordered {m : BTreeMap κ ν} {start stop : κ}
    (h : start ≤ stop ∨ m.rooted = false) :
    m.range start stop = some (m.entries.range start stop) := by
  unfold range
  cases hroot : m.rooted with
  | false => simp [m.entries_of_rootless hroot, OrdMap.range, OrdMap.empty]
  | true =>
    have hle : ¬ stop < start := by simpa [hroot] using h
    simp [hle]

lemma range_eq_none {m : BTreeMap κ ν} {start stop : κ}
    (h : ¬ (start ≤ stop ∨ m.rooted = false)) : m.range start stop = none := by
  rw [not_or, not_le, Bool.not_eq_false] at h
  simp [range, h.1, h.2]

end BTreeMap

end Epoch
