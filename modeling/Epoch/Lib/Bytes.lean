import Mathlib

/-!
# Byte strings under the dictionary order

Everything an ordered key-value engine does with its keys rests on three facts about byte
strings compared lexicographically.

* **Fixed-width big-endian numbers sort as numbers.**  `beBytes_append_lt_iff` says that a
  width-`w` big-endian field at the head of two strings decides their order, and hands the
  comparison on to the tails on a tie.
* **A string's immediate successor appends a zero byte** (`lt_iff_succ_le`), which is how a
  paged scan resumes strictly after the last key it returned.
* **Extending both sides by a common head changes nothing** (`append_lt_append_left_iff`).

The integer orders are the ones core Lean defines on `UInt8`, `UInt32` and `UInt64`; the instances
below only package them for Mathlib.
-/

namespace Epoch

abbrev Bytes := List UInt8

instance linearOrderUInt8 : LinearOrder UInt8 where
  le_refl := UInt8.le_refl
  le_trans := fun _ _ _ => UInt8.le_trans
  le_antisymm := fun _ _ => UInt8.le_antisymm
  le_total := UInt8.le_total
  toDecidableLE := inferInstance
  lt_iff_le_not_ge := fun a b => by
    simp only [UInt8.lt_iff_toNat_lt, UInt8.le_iff_toNat_le]; omega

instance linearOrderUInt32 : LinearOrder UInt32 where
  le_refl := UInt32.le_refl
  le_trans := fun _ _ _ => UInt32.le_trans
  le_antisymm := fun _ _ => UInt32.le_antisymm
  le_total := UInt32.le_total
  toDecidableLE := inferInstance
  lt_iff_le_not_ge := fun a b => by
    simp only [UInt32.lt_iff_toNat_lt, UInt32.le_iff_toNat_le]; omega

instance linearOrderUInt64 : LinearOrder UInt64 where
  le_refl := UInt64.le_refl
  le_trans := fun _ _ _ => UInt64.le_trans
  le_antisymm := fun _ _ => UInt64.le_antisymm
  le_total := UInt64.le_total
  toDecidableLE := inferInstance
  lt_iff_le_not_ge := fun a b => by
    simp only [UInt64.lt_iff_toNat_lt, UInt64.le_iff_toNat_le]; omega

lemma append_eq_append_iff_of_length {s s' t t' : Bytes} (h : s.length = s'.length) :
    s ++ t = s' ++ t' ↔ s = s' ∧ t = t' :=
  ⟨fun e => List.append_inj e h, by rintro ⟨rfl, rfl⟩; rfl⟩

/-! ## The dictionary order -/

lemma append_lt_append_left_iff (p s t : Bytes) : p ++ s < p ++ t ↔ s < t := by
  induction p with
  | nil => simp
  | cons a p ih => simp [ih]

lemma append_le_append_left_iff (p s t : Bytes) : p ++ s ≤ p ++ t ↔ s ≤ t := by
  rw [← not_lt, ← not_lt, append_lt_append_left_iff]

lemma cons_le_cons_iff (a b : UInt8) (s t : Bytes) :
    a :: s ≤ b :: t ↔ a < b ∨ a = b ∧ s ≤ t := by
  rw [← not_lt, List.cons_lt_cons_iff, not_or, not_lt]
  constructor
  · rintro ⟨hab, hst⟩
    rcases lt_or_eq_of_le hab with h | h
    · exact Or.inl h
    · exact Or.inr ⟨h, not_lt.mp fun hlt => hst ⟨h.symm, hlt⟩⟩
  · rintro (h | ⟨rfl, h⟩)
    · exact ⟨le_of_lt h, fun hba => absurd hba.1 (ne_of_gt h)⟩
    · exact ⟨le_refl _, fun hts => absurd hts.2 (not_lt.mpr h)⟩

lemma nil_le (s : Bytes) : ([] : Bytes) ≤ s := not_lt.mp (List.not_lt_nil s)

/-- Appending the zero byte gives the next byte string: nothing lies in between. -/
lemma lt_iff_succ_le (s t : Bytes) : s < t ↔ s ++ [0] ≤ t := by
  induction s generalizing t with
  | nil =>
    cases t with
    | nil => simp
    | cons b t =>
      have h0 : (0 : UInt8) ≤ b := UInt8.zero_le
      rcases lt_or_eq_of_le h0 with h | h
      · simp [cons_le_cons_iff, h]
      · simp [cons_le_cons_iff, h.symm, nil_le]
  | cons a s ih =>
    cases t with
    | nil => simp
    | cons b t => simp [cons_le_cons_iff, List.cons_lt_cons_iff, ih]

/-- A smaller string that is no prefix stays smaller whatever is appended to it. -/
lemma append_lt_of_not_prefix {s l : Bytes} (t : Bytes) (h : s < l) (hp : ¬ s <+: l) :
    s ++ t < l := by
  induction s generalizing l with
  | nil => exact absurd List.nil_prefix hp
  | cons a s ih =>
    cases l with
    | nil => exact absurd h (List.not_lt_nil _)
    | cons b l =>
      rw [List.cons_append]
      rcases List.cons_lt_cons_iff.mp h with hab | ⟨rfl, hsl⟩
      · exact List.cons_lt_cons_iff.mpr (Or.inl hab)
      · refine List.cons_lt_cons_iff.mpr (Or.inr ⟨rfl, ih hsl fun hp' => hp ?_⟩)
        exact (List.prefix_cons_inj a).mpr hp'

/-! ## Big-endian numbers -/

/-- The `w` low-order base-256 digits of `n`, most significant first. -/
def beBytes : ℕ → ℕ → Bytes
  | 0, _ => []
  | w + 1, n => UInt8.ofNat (n / 256 ^ w) :: beBytes w n

/-- The number a big-endian digit string denotes. -/
def beNat (s : Bytes) : ℕ := s.foldl (fun acc d => acc * 256 + d.toNat) 0

@[simp] lemma length_beBytes (w n : ℕ) : (beBytes w n).length = w := by
  induction w with
  | zero => rfl
  | succ w ih => simp [beBytes, ih]

lemma beBytes_mod (w n : ℕ) : beBytes w (n % 256 ^ w) = beBytes w n := by
  suffices h : ∀ v, v ≤ w → beBytes v (n % 256 ^ w) = beBytes v n from h w le_rfl
  intro v hv
  induction v with
  | zero => rfl
  | succ v ih =>
    rw [beBytes, beBytes, ih (by omega)]
    congr 1
    apply UInt8.toNat_inj.mp
    simp only [UInt8.toNat_ofNat']
    have hw : (256 : ℕ) ^ w = 256 ^ v * 256 ^ (w - v) := by
      rw [← pow_add]; congr 1; omega
    rw [hw, Nat.mod_mul_right_div_self]
    exact Nat.mod_mod_of_dvd _ (dvd_pow (by norm_num) (by omega))

lemma beBytes_append_lt_iff {w n m : ℕ} (hn : n < 256 ^ w) (hm : m < 256 ^ w) (s t : Bytes) :
    beBytes w n ++ s < beBytes w m ++ t ↔ n < m ∨ n = m ∧ s < t := by
  induction w generalizing n m with
  | zero =>
    have h0 : n = 0 := by simpa using hn
    have h1 : m = 0 := by simpa using hm
    simp [beBytes, h0, h1]
  | succ w ih =>
    have hpos : 0 < 256 ^ w := Nat.pow_pos (by norm_num)
    have hdn : n / 256 ^ w < 256 := Nat.div_lt_of_lt_mul (by rw [← pow_succ]; exact hn)
    have hdm : m / 256 ^ w < 256 := Nat.div_lt_of_lt_mul (by rw [← pow_succ]; exact hm)
    have ih' := ih (n := n % 256 ^ w) (m := m % 256 ^ w) (Nat.mod_lt _ hpos) (Nat.mod_lt _ hpos)
    rw [beBytes_mod, beBytes_mod] at ih'
    rw [beBytes, beBytes, List.cons_append, List.cons_append, List.cons_lt_cons_iff, ih',
      UInt8.lt_iff_toNat_lt, ← UInt8.toNat_inj]
    simp only [UInt8.toNat_ofNat', show (2 : ℕ) ^ 8 = 256 from rfl,
      Nat.mod_eq_of_lt hdn, Nat.mod_eq_of_lt hdm]
    -- split each number into its leading digit and the rest
    have en := Nat.div_add_mod n (256 ^ w)
    have em := Nat.div_add_mod m (256 ^ w)
    have hrn := Nat.mod_lt n hpos
    have hrm := Nat.mod_lt m hpos
    constructor
    · rintro (h | ⟨h, h' | ⟨h', hst⟩⟩)
      · left
        have := Nat.mul_le_mul_left (256 ^ w) (Nat.succ_le_of_lt h)
        rw [Nat.mul_succ] at this
        omega
      · left; rw [← en, ← em, h]; omega
      · right; exact ⟨by rw [← en, ← em, h, h'], hst⟩
    · rintro (h | ⟨rfl, hst⟩)
      · rcases Nat.lt_or_ge (n / 256 ^ w) (m / 256 ^ w) with hd | hd
        · exact Or.inl hd
        · have hdle := Nat.div_le_div_right (c := 256 ^ w) h.le
          have heq : n / 256 ^ w = m / 256 ^ w := le_antisymm hdle hd
          rw [heq] at en
          exact Or.inr ⟨heq, Or.inl (by omega)⟩
      · exact Or.inr ⟨rfl, Or.inr ⟨rfl, hst⟩⟩

lemma beBytes_injOn {w n m : ℕ} (hn : n < 256 ^ w) (hm : m < 256 ^ w)
    (h : beBytes w n = beBytes w m) : n = m := by
  have h1 := beBytes_append_lt_iff hn hm [] []
  have h2 := beBytes_append_lt_iff hm hn [] []
  simp only [h, lt_irrefl, false_iff, not_or] at h1 h2
  omega

lemma beNat_append (s t : Bytes) : beNat (s ++ t) = beNat s * 256 ^ t.length + beNat t := by
  have key : ∀ (t : Bytes) (a : ℕ),
      t.foldl (fun acc d => acc * 256 + d.toNat) a = a * 256 ^ t.length + beNat t := by
    intro t
    induction t with
    | nil => intro a; simp [beNat]
    | cons d t ih =>
      intro a
      simp only [List.foldl_cons, List.length_cons, beNat]
      rw [ih, ih (0 * 256 + d.toNat)]
      ring
  rw [beNat, List.foldl_append, key]
  rfl

lemma beNat_beBytes (w n : ℕ) : beNat (beBytes w n) = n % 256 ^ w := by
  induction w with
  | zero => simp [beBytes, beNat, Nat.mod_one]
  | succ w ih =>
    have happ : beBytes (w + 1) n = [UInt8.ofNat (n / 256 ^ w)] ++ beBytes w n := rfl
    rw [happ, beNat_append, ih, length_beBytes]
    simp only [beNat, List.foldl_cons, List.foldl_nil, UInt8.toNat_ofNat', zero_mul, zero_add]
    rw [show (2 : ℕ) ^ 8 = 256 from rfl, pow_succ, Nat.mod_mul, mul_comm (256 ^ w), add_comm]

lemma beNat_cons (d : UInt8) (s : Bytes) :
    beNat (d :: s) = d.toNat * 256 ^ s.length + beNat s := by
  have h := beNat_append [d] s
  simpa [beNat] using h

lemma beNat_lt (s : Bytes) : beNat s < 256 ^ s.length := by
  induction s with
  | nil => simp [beNat]
  | cons d s ih =>
    have hd := d.toNat_lt
    rw [beNat_cons, List.length_cons, pow_succ]
    nlinarith

lemma beBytes_beNat (s : Bytes) : beBytes s.length (beNat s) = s := by
  induction s with
  | nil => rfl
  | cons d s ih =>
    have hlt := beNat_lt s
    have hdiv : beNat (d :: s) / 256 ^ s.length = d.toNat := by
      rw [beNat_cons, Nat.add_comm, Nat.add_mul_div_right _ _ (by positivity),
        Nat.div_eq_of_lt hlt, Nat.zero_add]
    have hmod : beNat (d :: s) % 256 ^ s.length = beNat s := by
      rw [beNat_cons, Nat.add_comm, Nat.add_mul_mod_self_right, Nat.mod_eq_of_lt hlt]
    rw [List.length_cons, beBytes, hdiv, ← beBytes_mod, hmod, ih]
    simp

/-- `u32::to_be_bytes`. -/
def be32 (x : UInt32) : Bytes := beBytes 4 x.toNat

/-- `u64::to_be_bytes`. -/
def be64 (x : UInt64) : Bytes := beBytes 8 x.toNat

/-- `u128::to_be_bytes`. -/
def be128 (x : BitVec 128) : Bytes := beBytes 16 x.toNat

@[simp] lemma length_be32 (x : UInt32) : (be32 x).length = 4 := length_beBytes _ _
@[simp] lemma length_be64 (x : UInt64) : (be64 x).length = 8 := length_beBytes _ _
@[simp] lemma length_be128 (x : BitVec 128) : (be128 x).length = 16 := length_beBytes _ _

lemma toNat_lt_256_pow_four (x : UInt32) : x.toNat < 256 ^ 4 := x.toNat_lt
lemma toNat_lt_256_pow_eight (x : UInt64) : x.toNat < 256 ^ 8 := x.toNat_lt

@[simp] lemma be32_inj {x y : UInt32} : be32 x = be32 y ↔ x = y := by
  refine ⟨fun h => UInt32.toNat_inj.mp ?_, fun h => by rw [h]⟩
  exact beBytes_injOn (toNat_lt_256_pow_four x) (toNat_lt_256_pow_four y) h

@[simp] lemma be64_inj {x y : UInt64} : be64 x = be64 y ↔ x = y := by
  refine ⟨fun h => UInt64.toNat_inj.mp ?_, fun h => by rw [h]⟩
  exact beBytes_injOn (toNat_lt_256_pow_eight x) (toNat_lt_256_pow_eight y) h

@[simp] lemma be128_inj {x y : BitVec 128} : be128 x = be128 y ↔ x = y := by
  refine ⟨fun h => BitVec.eq_of_toNat_eq ?_, fun h => by rw [h]⟩
  exact beBytes_injOn (w := 16) x.isLt y.isLt h

/-- A 64-bit big-endian field decides the order, then the tails do. -/
lemma be64_append_lt_iff (x y : UInt64) (s t : Bytes) :
    be64 x ++ s < be64 y ++ t ↔ x < y ∨ x = y ∧ s < t := by
  rw [be64, be64, beBytes_append_lt_iff (toNat_lt_256_pow_eight x) (toNat_lt_256_pow_eight y),
    UInt64.lt_iff_toNat_lt, UInt64.toNat_inj]

lemma beNat_be32 (x : UInt32) : UInt32.ofNat (beNat (be32 x)) = x := by
  rw [be32, beNat_beBytes, Nat.mod_eq_of_lt (toNat_lt_256_pow_four x), UInt32.ofNat_toNat]

lemma beNat_be64 (x : UInt64) : UInt64.ofNat (beNat (be64 x)) = x := by
  rw [be64, beNat_beBytes, Nat.mod_eq_of_lt (toNat_lt_256_pow_eight x), UInt64.ofNat_toNat]

lemma toNat_ofNat32 {n : ℕ} (h : n < 2 ^ 32) : (UInt32.ofNat n).toNat = n :=
  UInt32.toNat_ofNat_of_lt' h

lemma exists_be32 {t : Bytes} (h : t.length = 4) : ∃ n : UInt32, be32 n = t := by
  refine ⟨UInt32.ofNat (beNat t), ?_⟩
  have hlt := beNat_lt t
  rw [h] at hlt
  rw [be32, toNat_ofNat32 (by omega), ← h, beBytes_beNat]

lemma exists_be64 {t : Bytes} (h : t.length = 8) : ∃ n : UInt64, be64 n = t := by
  refine ⟨UInt64.ofNat (beNat t), ?_⟩
  have hlt := beNat_lt t
  rw [h] at hlt
  rw [be64, UInt64.toNat_ofNat_of_lt' hlt, ← h, beBytes_beNat]

lemma exists_be128 {t : Bytes} (h : t.length = 16) : ∃ n : BitVec 128, be128 n = t := by
  refine ⟨BitVec.ofNat 128 (beNat t), ?_⟩
  have hlt := beNat_lt t
  rw [h] at hlt
  rw [be128, BitVec.toNat_ofNat, Nat.mod_eq_of_lt (by omega), ← h, beBytes_beNat]

/-- Nothing of at most `n` bytes lies above `n` bytes `0xFF`. -/
lemma le_replicate_ff {t : Bytes} {n : ℕ} (h : t.length ≤ n) : t ≤ List.replicate n 0xFF := by
  induction n generalizing t with
  | zero => rw [List.length_eq_zero_iff.mp (Nat.le_zero.mp h)]; exact nil_le _
  | succ n ih =>
    cases t with
    | nil => exact nil_le _
    | cons a t =>
      rw [List.replicate_succ, cons_le_cons_iff]
      rcases lt_or_eq_of_le (UInt8.le_iff_toNat_le.mpr (Nat.lt_succ_iff.mp a.toNat_lt) :
        a ≤ 0xFF) with hlt | heq
      · exact Or.inl hlt
      · exact Or.inr ⟨heq, ih (Nat.le_of_succ_le_succ h)⟩

/-! ## Little-endian numbers -/

/-- The number a little-endian digit string denotes. -/
def leNat (s : Bytes) : ℕ := beNat s.reverse

/-- `u32::to_le_bytes`. -/
def le32 (x : UInt32) : Bytes := (be32 x).reverse

/-- `u64::to_le_bytes`. -/
def le64 (x : UInt64) : Bytes := (be64 x).reverse

@[simp] lemma length_le32 (x : UInt32) : (le32 x).length = 4 := by simp [le32]
@[simp] lemma length_le64 (x : UInt64) : (le64 x).length = 8 := by simp [le64]

@[simp] lemma leNat_le32 (x : UInt32) : UInt32.ofNat (leNat (le32 x)) = x := by
  rw [leNat, le32, List.reverse_reverse, beNat_be32]

@[simp] lemma leNat_le64 (x : UInt64) : UInt64.ofNat (leNat (le64 x)) = x := by
  rw [leNat, le64, List.reverse_reverse, beNat_be64]

end Epoch
