/-
`_remove_trailing_zeros` (`builtin/_format_float.mojo`): decimal zeros by multiplication.

A word is a multiple of `10 ^ k` when its product with an inverse of `5 ^ k`, rotated right by
`k`, falls below a threshold, and then the rotated product is the quotient.  Steps for
`k = 8, 4, 2, 1` take a count of zeros below 16 apart bit by bit.

* `Step.Valid.quotient_lt_iff` — a step recognises exactly the multiples of its power of ten;
* `removeTrailingZeros_spec` — all zeros are removed and counted in the exponent.
-/
import Mathlib

namespace FormatFloat

/-- The types of the significand. -/
inductive Carrier
  | uint32
  | uint64
  deriving DecidableEq, Repr

def Carrier.bits : Carrier → ℕ
  | uint32 => 32
  | uint64 => 64

/-- The constants of a step. -/
structure Step where
  zeros : ℕ
  inverse : ℕ
  threshold : ℕ

def Carrier.steps : Carrier → List Step
  | uint64 => [⟨8, 28999941890838049, 184467440738⟩, ⟨4, 182622766329724561, 1844674407370956⟩,
    ⟨2, 10330176681277348905, 184467440737095517⟩, ⟨1, 14757395258967641293, 1844674407370955162⟩]
  | uint32 => [⟨4, 184254097, 429497⟩, ⟨2, 42949673, 42949673⟩, ⟨1, 1288490189, 429496730⟩]

variable {w : ℕ} {s : Step}

/-- `_rotr`; for a width that is a power of two the mask `r & (w - 1)` is `r % w`. -/
def rotr (x : BitVec w) (r : ℕ) : BitVec w :=
  x >>> (r % w) ||| x <<< ((w - r % w) % w)

def Step.quotient (s : Step) (sig : BitVec w) : BitVec w :=
  rotr (sig * BitVec.ofNat w s.inverse) s.zeros

/-- One step on the significand and the count of zeros. -/
def Step.run (st : BitVec w × ℕ) (s : Step) : BitVec w × ℕ :=
  let r := s.quotient st.1
  if r < BitVec.ofNat w s.threshold then (r, st.2 * 2 + 1) else (st.1, st.2 * 2)

def removeTrailingZeros (c : Carrier) (sig : BitVec c.bits) (exp : BitVec 64) :
    BitVec c.bits × BitVec 64 :=
  let r := c.steps.foldl Step.run (sig, 0)
  (r.1, exp + BitVec.ofNat 64 r.2)

/-! ### One step -/

/-- What makes the constants of a step right: `inverse` inverts the power of five below the
bits that are rotated, and `threshold` is the first number too large for a quotient. -/
def Step.Valid (w : ℕ) (s : Step) : Prop :=
  0 < s.zeros ∧ s.zeros < w ∧ s.inverse % 2 = 1 ∧ s.threshold ≤ 2 ^ (w - s.zeros) ∧
    s.inverse * 5 ^ s.zeros % 2 ^ (w - s.zeros) = 1 ∧
    (s.threshold - 1) * 10 ^ s.zeros < 2 ^ w ∧ 2 ^ w ≤ s.threshold * 10 ^ s.zeros

instance : Decidable (s.Valid w) := inferInstanceAs (Decidable (_ ∧ _))

theorem toNat_rotr (x : BitVec w) {k : ℕ} (hpos : 0 < k) (hk : k < w) :
    (rotr x k).toNat = x.toNat / 2 ^ k + 2 ^ (w - k) * (x.toNat % 2 ^ k) := by
  have hsplit : 2 ^ w = 2 ^ (w - k) * 2 ^ k := by rw [← pow_add, Nat.sub_add_cancel hk.le]
  have hlt : x.toNat / 2 ^ k < 2 ^ (w - k) := by
    rw [Nat.div_lt_iff_lt_mul (Nat.two_pow_pos k), ← hsplit]
    exact x.isLt
  rw [rotr, Nat.mod_eq_of_lt hk, Nat.mod_eq_of_lt (Nat.sub_lt (by omega) hpos), BitVec.toNat_or,
    BitVec.toNat_ushiftRight, BitVec.toNat_shiftLeft, Nat.shiftRight_eq_div_pow,
    Nat.shiftLeft_eq, Nat.mul_comm, hsplit, Nat.mul_mod_mul_left, Nat.lor_comm,
    ← Nat.two_pow_add_eq_or_of_lt hlt, Nat.add_comm]

/-- Multiplying by the inverse and by the power of five gives a multiple of `2 ^ k` back. -/
theorem Step.Valid.mul_inverse (h : s.Valid w) (x : ℕ) :
    2 ^ s.zeros * x * s.inverse * 5 ^ s.zeros ≡ 2 ^ s.zeros * x [MOD 2 ^ w] := by
  obtain ⟨-, hk, -, -, hinv, -⟩ := h
  have hone : s.inverse * 5 ^ s.zeros ≡ 1 [MOD 2 ^ (w - s.zeros)] := by
    rw [Nat.ModEq, hinv, Nat.mod_eq_of_lt (Nat.one_lt_two_pow (by omega))]
  have hmul := (hone.mul_left x).mul_left' (2 ^ s.zeros)
  rw [← pow_add, Nat.add_sub_cancel' hk.le, mul_one] at hmul
  simpa only [mul_assoc] using hmul

/-- **One step.**  The rotated product is below the threshold exactly on the multiples of the
power of ten, and there it is the quotient. -/
theorem Step.Valid.quotient_lt_iff (h : s.Valid w) (x : BitVec w) :
    (s.quotient x < BitVec.ofNat w s.threshold ↔ 10 ^ s.zeros ∣ x.toNat) ∧
      (10 ^ s.zeros ∣ x.toNat → (s.quotient x).toNat * 10 ^ s.zeros = x.toNat) := by
  obtain ⟨hpos, hk, hodd, hle, -, hlow, hhigh⟩ := id h
  have hten : 10 ^ s.zeros = 2 ^ s.zeros * 5 ^ s.zeros := by rw [← mul_pow]; rfl
  have hthreshold : (BitVec.ofNat w s.threshold).toNat = s.threshold :=
    Nat.mod_eq_of_lt (hle.trans_lt (Nat.pow_lt_pow_right one_lt_two (by omega)))
  have hquot : (s.quotient x).toNat = x.toNat * s.inverse % 2 ^ w / 2 ^ s.zeros +
      2 ^ (w - s.zeros) * (x.toNat * s.inverse % 2 ^ w % 2 ^ s.zeros) := by
    rw [Step.quotient, toNat_rotr _ hpos hk, BitVec.toNat_mul, BitVec.toNat_ofNat, Nat.mul_mod_mod]
  have hdiv : 10 ^ s.zeros ∣ x.toNat → (s.quotient x).toNat * 10 ^ s.zeros = x.toNat := by
    rintro ⟨q, hq⟩
    have hlt : 2 ^ s.zeros * q < 2 ^ w := by
      refine lt_of_le_of_lt ?_ x.isLt
      rw [hq, hten]
      exact Nat.mul_le_mul_right q (Nat.le_mul_of_pos_right _ (by positivity))
    have hprod : x.toNat * s.inverse % 2 ^ w = 2 ^ s.zeros * q := by
      rw [← Nat.mod_eq_of_lt hlt, ← h.mul_inverse q, hq, hten]
      congr 1
      ring
    rw [hquot, hprod, Nat.mul_div_cancel_left _ (Nat.two_pow_pos _), Nat.mul_mod_right, hq]
    ring
  rw [BitVec.lt_def, hthreshold]
  refine ⟨⟨fun hlt => ?_, fun hdvd => ?_⟩, hdiv⟩
  · set r := (s.quotient x).toNat
    -- the bits that the rotation moves to the top are zero
    have hzero : x.toNat * s.inverse % 2 ^ w % 2 ^ s.zeros = 0 := by
      by_contra hne
      have hge := Nat.le_mul_of_pos_right (2 ^ (w - s.zeros)) (Nat.pos_of_ne_zero hne)
      rw [hquot] at hlt
      exact absurd (hlt.trans_le (hle.trans hge)) (Nat.le_add_left _ _).not_gt
    rw [hzero, mul_zero, add_zero] at hquot
    have hdvd : 2 ^ s.zeros ∣ x.toNat * s.inverse := by
      rw [Nat.mod_mod_of_dvd _ (pow_dvd_pow 2 hk.le)] at hzero
      exact Nat.dvd_of_mod_eq_zero hzero
    obtain ⟨y, hy⟩ := (Nat.Coprime.pow_left s.zeros (Nat.coprime_two_left.mpr
      (Nat.odd_iff.mpr hodd))).dvd_of_dvd_mul_right hdvd
    have hprod : x.toNat * s.inverse % 2 ^ w = 2 ^ s.zeros * r := by
      rw [hquot, Nat.mul_div_cancel' (Nat.dvd_of_mod_eq_zero hzero)]
    have hback := h.mul_inverse y
    rw [← hy, Nat.ModEq, ← Nat.mod_mul_mod, hprod, Nat.mod_eq_of_lt x.isLt, mul_right_comm, ← hten,
      Nat.mod_eq_of_lt (lt_of_le_of_lt ?_ hlow)] at hback
    · exact ⟨r, hback.symm⟩
    · rw [mul_comm]
      exact Nat.mul_le_mul_right _ (by omega)
  · -- a quotient at the threshold would not fit the word
    have hlt := (hdiv hdvd).trans_lt x.isLt
    exact lt_of_mul_lt_mul_right (hlt.trans_le hhigh) (Nat.zero_le _)

/-! ### All steps -/

/-- Steps for `…, 4, 2, 1` zeros, with the right constants. -/
def Halving (w : ℕ) : List Step → Prop
  | [] => True
  | s :: steps => s.zeros = 2 ^ steps.length ∧ s.Valid w ∧ Halving w steps

/-- Each step takes half of the zeros that can be left. -/
theorem foldl_run {steps : List Step} (h : Halving w steps) (sig : BitVec w) (z : ℕ)
    (hlt : ¬ 10 ^ 2 ^ steps.length ∣ sig.toNat) :
    ∃ k < 2 ^ steps.length, (steps.foldl Step.run (sig, z)).2 = z * 2 ^ steps.length + k ∧
      (steps.foldl Step.run (sig, z)).1.toNat * 10 ^ k = sig.toNat ∧
      ¬ 10 ∣ (steps.foldl Step.run (sig, z)).1.toNat := by
  induction steps generalizing sig z with
  | nil => exact ⟨0, by simp, by simp, by simp, by simpa using hlt⟩
  | cons s steps ih =>
    obtain ⟨hzeros, hvalid, hrest⟩ := h
    obtain ⟨hiff, hquot⟩ := hvalid.quotient_lt_iff sig
    rw [hzeros] at hiff hquot
    rw [List.length_cons, pow_succ, Nat.mul_two] at hlt ⊢
    rw [List.foldl_cons, Step.run]
    by_cases hdvd : 10 ^ 2 ^ steps.length ∣ sig.toNat
    · rw [if_pos (hiff.mpr hdvd)]
      obtain ⟨k, hk, hz, hsig, hten⟩ := ih hrest (s.quotient sig) (z * 2 + 1) (by
        rintro ⟨q, hq⟩
        refine hlt ⟨q, ?_⟩
        rw [← hquot hdvd, hq, pow_add]
        ring)
      refine ⟨2 ^ steps.length + k, by omega, by rw [hz]; ring, ?_, hten⟩
      rw [pow_add, mul_left_comm, hsig, mul_comm, hquot hdvd]
    · rw [if_neg (hiff.not.mpr hdvd)]
      obtain ⟨k, hk, hz, hsig, hten⟩ := ih hrest sig (z * 2) hdvd
      exact ⟨k, by omega, by rw [hz]; ring, hsig, hten⟩

theorem Carrier.valid (c : Carrier) : ∀ s ∈ c.steps, s.Valid c.bits := by
  cases c <;> decide

theorem Carrier.halving (c : Carrier) : Halving c.bits c.steps := by
  have hvalid := c.valid
  cases c <;> simp_all [steps, Halving]

/-- **Removing the zeros.**  Every step recognises exactly the multiples of its power of ten.
A significand with fewer zeros than the steps can count, 16 for 64 bits and 8 for 32, loses all
of them, and the exponent is raised by their number. -/
theorem removeTrailingZeros_spec (c : Carrier) (sig : BitVec c.bits) (exp : BitVec 64)
    (hlt : ¬ 10 ^ 2 ^ c.steps.length ∣ sig.toNat) :
    (∀ s ∈ c.steps, ∀ x : BitVec c.bits,
      s.quotient x < BitVec.ofNat c.bits s.threshold ↔ 10 ^ s.zeros ∣ x.toNat) ∧
    (removeTrailingZeros c sig exp).1.toNat *
        10 ^ ((removeTrailingZeros c sig exp).2 - exp).toNat = sig.toNat ∧
      ¬ 10 ∣ (removeTrailingZeros c sig exp).1.toNat := by
  refine ⟨fun s hs x => ((c.valid s hs).quotient_lt_iff x).1, ?_⟩
  obtain ⟨k, hk, hz, hsig, hten⟩ := foldl_run c.halving sig 0 hlt
  have hsmall : k < 2 ^ 64 := hk.trans (by cases c <;> decide)
  refine ⟨?_, hten⟩
  simp only [removeTrailingZeros, hz, zero_mul, zero_add]
  rwa [add_sub_cancel_left, BitVec.toNat_ofNat, Nat.mod_eq_of_lt hsmall]

/-- Two zeros of a 32-bit significand. -/
theorem removeTrailingZeros_spec_hundreds :
    removeTrailingZeros .uint32 1200 5 = (12, 7) ∧
      ¬ 10 ∣ (removeTrailingZeros .uint32 1200 5).1.toNat :=
  ⟨by decide, (removeTrailingZeros_spec .uint32 1200 5 (by decide)).2.2⟩

end FormatFloat
