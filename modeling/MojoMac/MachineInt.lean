/-
The 64-bit signed integer `Int`, with `next_power_of_two` (`bit/bit.mojo`).

Values are integers; `wrap` stands where the source can overflow.  A power of two
up to `2 ^ 62` is what the collections use as a capacity: its mask is the
remainder, and its double is still an `Int` or overflows to a negative one.

* `MachineInt.land_mask` — `i & (2 ^ k - 1)` is `i` modulo `2 ^ k`, for negative `i` too;
* `MachineInt.nextPowerOfTwo_spec` — up to `2 ^ 62` the rounding is right.
-/
import Mathlib

namespace MachineInt

/-- The `Int` that the exact result `z` wraps to. -/
def wrap (z : ℤ) : ℤ :=
  (BitVec.ofInt 64 z).toInt

/-- Bitwise `&` of two `Int`s. -/
def land (x y : ℤ) : ℤ :=
  (BitVec.ofInt 64 x &&& BitVec.ofInt 64 y).toInt

/-- `next_power_of_two`: `1 << (64 - count_leading_zeros(val - 1))`, and 1 up to 1. -/
def nextPowerOfTwo (val : ℤ) : ℤ :=
  if val ≤ 1 then 1 else wrap (2 ^ (64 - (BitVec.ofInt 64 (val - 1)).clz.toNat))

theorem wrap_of_mem {z : ℤ} (hlo : -2 ^ 63 ≤ z) (hhi : z < 2 ^ 63) : wrap z = z := by
  rw [wrap, BitVec.toInt_ofInt, Int.bmod_eq_of_le (by omega) (by omega)]

theorem land_mask (i : ℤ) {k : ℕ} (hk : k ≤ 62) : land i (2 ^ k - 1) = i % 2 ^ k := by
  have hcast : (2 : ℤ) ^ k = ((2 ^ k : ℕ) : ℤ) := by
    push_cast
    rfl
  have hdvd : ((2 ^ k : ℕ) : ℤ) ∣ ((2 ^ 64 : ℕ) : ℤ) :=
    Int.natCast_dvd_natCast.mpr (pow_dvd_pow 2 (by omega))
  have hpow : 2 ^ k ≤ 2 ^ 62 := Nat.pow_le_pow_right (by norm_num) hk
  have hpos : 0 < 2 ^ k := Nat.two_pow_pos k
  rw [hcast]
  have hmask : (BitVec.ofInt 64 (((2 ^ k : ℕ) : ℤ) - 1)).toNat = 2 ^ k - 1 := by
    rw [BitVec.toNat_ofInt, Int.emod_eq_of_lt (by omega) (by omega)]
    omega
  have hnonneg : 0 ≤ i % ((2 ^ 64 : ℕ) : ℤ) := Int.emod_nonneg _ (by norm_num)
  have hand : ((BitVec.ofInt 64 i &&& BitVec.ofInt 64 (((2 ^ k : ℕ) : ℤ) - 1)).toNat : ℤ) =
      i % ((2 ^ k : ℕ) : ℤ) := by
    rw [BitVec.toNat_and, hmask, Nat.and_two_pow_sub_one_eq_mod, BitVec.toNat_ofInt,
      Int.natCast_emod, Int.toNat_of_nonneg hnonneg, Int.emod_emod_of_dvd i hdvd]
  rw [land, BitVec.toInt_eq_toNat_of_lt (by omega), hand]

/-- Up to `2 ^ 62` the result is a power of two that is not below the argument. -/
theorem nextPowerOfTwo_spec {val : ℤ} (hval : val ≤ 2 ^ 62) :
    ∃ k ≤ 62, nextPowerOfTwo val = 2 ^ k ∧ val ≤ 2 ^ k := by
  by_cases hone : val ≤ 1
  · exact ⟨0, by omega, by rw [nextPowerOfTwo, if_pos hone, pow_zero], by simpa using hone⟩
  have hnat : (BitVec.ofInt 64 (val - 1)).toNat = (val - 1).toNat := by
    rw [BitVec.toNat_ofInt, Int.emod_eq_of_lt (by omega) (by omega)]
  have hlt := BitVec.toNat_lt_two_pow_sub_clz (x := BitVec.ofInt 64 (val - 1))
  have hle := BitVec.two_pow_sub_clz_le_toNat_of_ne_zero (x := BitVec.ofInt 64 (val - 1))
    (by omega) (by rw [ne_eq, ← BitVec.toNat_inj, hnat]; simp; omega)
  rw [hnat] at hlt hle
  have hk : 64 - (BitVec.ofInt 64 (val - 1)).clz.toNat ≤ 62 := by
    have hexp : 2 ^ (64 - 1 - (BitVec.ofInt 64 (val - 1)).clz.toNat) < 2 ^ 62 := by omega
    have := (Nat.pow_lt_pow_iff_right (by norm_num : 1 < 2)).mp hexp
    omega
  rw [nextPowerOfTwo, if_neg hone]
  generalize 64 - (BitVec.ofInt 64 (val - 1)).clz.toNat = k at hlt hk ⊢
  have hcast : (2 : ℤ) ^ k = ((2 ^ k : ℕ) : ℤ) := by
    push_cast
    rfl
  have hpow : 2 ^ k ≤ 2 ^ 62 := Nat.pow_le_pow_right (by norm_num) hk
  exact ⟨k, hk, by rw [hcast, wrap_of_mem (by omega) (by omega)], by omega⟩

end MachineInt
