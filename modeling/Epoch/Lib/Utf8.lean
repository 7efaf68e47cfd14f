import Epoch.Lib.Bytes

/-!
# UTF-8 and its lossy reading

`fromUtf8Lossy` reads a byte string as text the way `String::from_utf8_lossy` does: valid characters
are kept, and each longest head that starts no character is replaced by U+FFFD.  Text is unchanged
(`fromUtf8Lossy_of_isUtf8`), also when it is followed by something that is not text
(`fromUtf8Lossy_append`).
-/

namespace Epoch

namespace Utf8

def isTail (b : UInt8) : Bool := 0x80 ≤ b && b ≤ 0xBF

/-- The second byte after the first byte of a character of three bytes. -/
def second3 (a b : UInt8) : Bool :=
  if a = 0xE0 then 0xA0 ≤ b && b ≤ 0xBF
  else if a = 0xED then 0x80 ≤ b && b ≤ 0x9F
  else isTail b

/-- The second byte after the first byte of a character of four bytes. -/
def second4 (a b : UInt8) : Bool :=
  if a = 0xF0 then 0x90 ≤ b && b ≤ 0xBF
  else if a = 0xF4 then 0x80 ≤ b && b ≤ 0x8F
  else isTail b

/-- The length of the chunk at the head of `a :: rest` less one, and whether it is a character. -/
def chunk (a : UInt8) (rest : Bytes) : Bool × ℕ :=
  if a < 0x80 then (true, 0)
  else if 0xC2 ≤ a ∧ a ≤ 0xDF then
    if isTail (rest.getD 0 0) then (true, 1) else (false, 0)
  else if 0xE0 ≤ a ∧ a ≤ 0xEF then
    if second3 a (rest.getD 0 0) then
      if isTail (rest.getD 1 0) then (true, 2) else (false, 1)
    else (false, 0)
  else if 0xF0 ≤ a ∧ a ≤ 0xF4 then
    if second4 a (rest.getD 0 0) then
      if isTail (rest.getD 1 0) then
        if isTail (rest.getD 2 0) then (true, 3) else (false, 2)
      else (false, 1)
    else (false, 0)
  else (false, 0)

/-- U+FFFD. -/
def replacement : Bytes := [0xEF, 0xBF, 0xBD]

def lossy : ℕ → Bytes → Bytes
  | 0, _ => []
  | _, [] => []
  | fuel + 1, a :: rest =>
    let c := chunk a rest
    (if c.1 then a :: rest.take c.2 else replacement) ++ lossy fuel (rest.drop c.2)

def valid : ℕ → Bytes → Bool
  | 0, s => s.isEmpty
  | _, [] => true
  | fuel + 1, a :: rest => (chunk a rest).1 && valid fuel (rest.drop (chunk a rest).2)

end Utf8

open Utf8

/-- `String::from_utf8_lossy`, as bytes; no chunk is empty, so the length bounds their number. -/
def fromUtf8Lossy (s : Bytes) : Bytes := lossy s.length s

def IsUtf8 (s : Bytes) : Prop := valid s.length s = true

instance (s : Bytes) : Decidable (IsUtf8 s) := inferInstanceAs (Decidable (_ = _))

namespace Utf8

@[simp] lemma isTail_zero : isTail 0 = false := by decide

lemma second3_zero (a : UInt8) : second3 a 0 = false := by
  unfold second3
  split_ifs <;> decide

lemma second4_zero (a : UInt8) : second4 a 0 = false := by
  unfold second4
  split_ifs <;> decide

/-- A byte that is looked at and is not zero is there. -/
lemma lt_length_of_getD {s : Bytes} {i : ℕ} {p : UInt8 → Bool} (hp : p 0 = false)
    (h : p (s.getD i 0) = true) : i < s.length := by
  by_contra hlen
  rw [List.getD_eq_default _ _ (not_lt.mp hlen), hp] at h
  exact Bool.false_ne_true h

lemma getD_append_of_lt {s : Bytes} {i : ℕ} (t : Bytes) (h : i < s.length) :
    (s ++ t).getD i 0 = s.getD i 0 := List.getD_append _ _ _ _ h

/-- A character is read from its own bytes. -/
lemma chunk_of_valid {a : UInt8} {rest : Bytes} (h : (chunk a rest).1 = true) :
    (chunk a rest).2 ≤ rest.length ∧ ∀ t, chunk a (rest ++ t) = chunk a rest := by
  unfold chunk at h ⊢
  by_cases h1 : a < 0x80
  · simp only [if_pos h1]
    exact ⟨Nat.zero_le _, fun _ => trivial⟩
  simp only [if_neg h1] at h ⊢
  by_cases h2 : 0xC2 ≤ a ∧ a ≤ 0xDF
  · simp only [if_pos h2] at h ⊢
    by_cases t0 : isTail (rest.getD 0 0) = true
    · have l0 := lt_length_of_getD isTail_zero t0
      simp only [if_pos t0, getD_append_of_lt _ l0]
      exact ⟨l0, fun _ => trivial⟩
    · simp only [if_neg t0] at h
      exact absurd h Bool.false_ne_true
  simp only [if_neg h2] at h ⊢
  by_cases h3 : 0xE0 ≤ a ∧ a ≤ 0xEF
  · simp only [if_pos h3] at h ⊢
    by_cases t0 : second3 a (rest.getD 0 0) = true
    · by_cases t1 : isTail (rest.getD 1 0) = true
      · have l0 := lt_length_of_getD (second3_zero a) t0
        have l1 := lt_length_of_getD isTail_zero t1
        simp only [if_pos t0, if_pos t1, getD_append_of_lt _ l0, getD_append_of_lt _ l1]
        exact ⟨l1, fun _ => trivial⟩
      · simp only [if_pos t0, if_neg t1] at h
        exact absurd h Bool.false_ne_true
    · simp only [if_neg t0] at h
      exact absurd h Bool.false_ne_true
  simp only [if_neg h3] at h ⊢
  by_cases h4 : 0xF0 ≤ a ∧ a ≤ 0xF4
  · simp only [if_pos h4] at h ⊢
    by_cases t0 : second4 a (rest.getD 0 0) = true
    · by_cases t1 : isTail (rest.getD 1 0) = true
      · by_cases t2 : isTail (rest.getD 2 0) = true
        · have l0 := lt_length_of_getD (second4_zero a) t0
          have l1 := lt_length_of_getD isTail_zero t1
          have l2 := lt_length_of_getD isTail_zero t2
          simp only [if_pos t0, if_pos t1, if_pos t2, getD_append_of_lt _ l0,
            getD_append_of_lt _ l1, getD_append_of_lt _ l2]
          exact ⟨l2, fun _ => trivial⟩
        · simp only [if_pos t0, if_pos t1, if_neg t2] at h
          exact absurd h Bool.false_ne_true
      · simp only [if_pos t0, if_neg t1] at h
        exact absurd h Bool.false_ne_true
    · simp only [if_neg t0] at h
      exact absurd h Bool.false_ne_true
  · simp only [if_neg h4] at h
    exact absurd h Bool.false_ne_true

lemma lossy_append {fuel : ℕ} {s : Bytes} (h : valid fuel s = true) (fuel' : ℕ) (t : Bytes)
    (hfuel : s.length + t.length ≤ fuel') : ∃ fuel'', t.length ≤ fuel''
      ∧ lossy fuel' (s ++ t) = s ++ lossy fuel'' t := by
  induction fuel generalizing s fuel' with
  | zero =>
    rw [valid, List.isEmpty_iff] at h
    subst h
    exact ⟨fuel', by simpa using hfuel, rfl⟩
  | succ fuel ih =>
    cases s with
    | nil => exact ⟨fuel', by simpa using hfuel, rfl⟩
    | cons a rest =>
      rw [valid, Bool.and_eq_true] at h
      obtain ⟨hlen, happ⟩ := chunk_of_valid h.1
      cases fuel' with
      | zero => simp at hfuel
      | succ fuel' =>
        rw [List.length_cons] at hfuel
        obtain ⟨fuel'', hle, heq⟩ := ih h.2 fuel' (by
          rw [List.length_drop]
          omega)
        refine ⟨fuel'', hle, ?_⟩
        rw [List.cons_append, lossy]
        simp only [happ t, h.1, if_true]
        rw [List.take_append_of_le_length hlen, List.drop_append_of_le_length hlen, heq,
          ← List.append_assoc, List.cons_append, List.take_append_drop]

lemma lossy_fuel {fuel : ℕ} (fuel' : ℕ) {s : Bytes} (h : s.length ≤ fuel) (h' : s.length ≤ fuel') :
    lossy fuel s = lossy fuel' s := by
  induction fuel generalizing s fuel' with
  | zero =>
    obtain rfl : s = [] := by simpa using h
    cases fuel' <;> rfl
  | succ fuel ih =>
    cases s with
    | nil => cases fuel' <;> rfl
    | cons a rest =>
      cases fuel' with
      | zero => simp at h'
      | succ fuel' =>
        rw [List.length_cons] at h h'
        rw [lossy, lossy]
        rw [ih fuel' (by rw [List.length_drop]; omega)
          (by rw [List.length_drop]; omega)]

end Utf8

/-- Text at the head of a byte string is kept. -/
lemma fromUtf8Lossy_append {s : Bytes} (h : IsUtf8 s) (t : Bytes) :
    fromUtf8Lossy (s ++ t) = s ++ fromUtf8Lossy t := by
  obtain ⟨fuel, hle, heq⟩ := lossy_append h (s ++ t).length t (by simp)
  rw [fromUtf8Lossy, heq, fromUtf8Lossy, lossy_fuel _ hle le_rfl]

lemma fromUtf8Lossy_of_isUtf8 {s : Bytes} (h : IsUtf8 s) : fromUtf8Lossy s = s := by
  have happ := fromUtf8Lossy_append h []
  rw [List.append_nil] at happ
  rw [happ]
  exact List.append_nil s

lemma fromUtf8Lossy_ne_nil {s : Bytes} (h : s ≠ []) : fromUtf8Lossy s ≠ [] := by
  obtain ⟨a, rest, rfl⟩ := List.exists_cons_of_ne_nil h
  rw [fromUtf8Lossy, List.length_cons, lossy]
  split_ifs <;> simp [replacement]

end Epoch
