import Mathlib

/-!
# Saturating machine arithmetic

`u64::saturating_add` and `u64::saturating_add_signed`, and what they are as numbers: the plain sum
while it is in range, and the bound otherwise.
-/

namespace Epoch

/-- `u64::saturating_add_signed`. -/
def saturatingAddSigned (n : UInt64) (d : Int64) : UInt64 :=
  let v := (n.toNat : Int) + d.toInt
  if v < 0 then 0
  else if 2 ^ 64 ≤ v then UInt64.ofNat (2 ^ 64 - 1)
  else UInt64.ofNat v.toNat

lemma toNat_saturatingAddSigned {n : UInt64} {d : Int64} (h0 : 0 ≤ (n.toNat : ℤ) + d.toInt)
    (h1 : (n.toNat : ℤ) + d.toInt < 2 ^ 64) :
    ((saturatingAddSigned n d).toNat : ℤ) = n.toNat + d.toInt := by
  have hlt : ((n.toNat : ℤ) + d.toInt).toNat < 2 ^ 64 := by omega
  rw [saturatingAddSigned, if_neg (by omega), if_neg (by omega), UInt64.toNat_ofNat_of_lt' hlt]
  omega

/-- `u64::saturating_add`. -/
def saturatingAdd (a b : UInt64) : UInt64 :=
  if a.toNat + b.toNat < 2 ^ 64 then a + b else UInt64.ofNat (2 ^ 64 - 1)

lemma toNat_saturatingAdd (a b : UInt64) :
    (saturatingAdd a b).toNat = min (a.toNat + b.toNat) (2 ^ 64 - 1) := by
  unfold saturatingAdd
  split_ifs with h
  · rw [UInt64.toNat_add, Nat.mod_eq_of_lt h]
    omega
  · rw [UInt64.toNat_ofNat_of_lt' (by decide)]
    omega

end Epoch
