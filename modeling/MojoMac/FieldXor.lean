/-
Adding one field of bits to another, without carry.

`apply b src dst n` is `n` with its `b` bits from position `src` on xor-ed into those from
`dst` on.

* `apply_apply` — twice is nothing, when the two fields are disjoint;
* `image_block` — a block of bits above both fields stays, so each aligned block is mapped
  onto itself;
* `apply_run` — bits below both fields stay, so each aligned run is moved as a whole;
* `apply_column` — the field that takes up the other one, as a number.
-/
import Mathlib

namespace FieldXor

def apply (b src dst n : ℕ) : ℕ :=
  n ^^^ n / 2 ^ src % 2 ^ b * 2 ^ dst

variable {b src dst n m : ℕ}

theorem testBit_apply (b src dst n i : ℕ) : (apply b src dst n).testBit i
    = (n.testBit i ^^ (decide (dst ≤ i ∧ i < dst + b) && n.testBit (i - dst + src))) := by
  rw [apply, Nat.testBit_xor, Nat.testBit_mul_two_pow, Nat.testBit_mod_two_pow,
    Nat.testBit_div_two_pow]
  by_cases hd : dst ≤ i
  · by_cases hb : i < dst + b
    · simp [hd, hb, show i - dst < b by omega]
    · simp [hd, hb, show ¬ i - dst < b by omega]
  · simp [hd]

/-- The two fields have no position in common. -/
def Disjoint (b src dst : ℕ) : Prop :=
  src + b ≤ dst ∨ dst + b ≤ src

theorem apply_apply (h : Disjoint b src dst) (n : ℕ) : apply b src dst (apply b src dst n) = n := by
  refine Nat.eq_of_testBit_eq fun i => ?_
  rw [testBit_apply]
  by_cases hi : dst ≤ i ∧ i < dst + b
  · -- the bit that is added is not one that was changed
    have hsrc : ¬ (dst ≤ i - dst + src ∧ i - dst + src < dst + b) := by
      rcases h with h | h <;> omega
    rw [testBit_apply, testBit_apply]
    simp [hi, hsrc]
  · rw [testBit_apply]
    simp [hi]

/-! ### Blocks -/

theorem apply_div (h : dst + b ≤ m) : apply b src dst n / 2 ^ m = n / 2 ^ m := by
  refine Nat.eq_of_testBit_eq fun i => ?_
  rw [Nat.testBit_div_two_pow, Nat.testBit_div_two_pow, testBit_apply]
  have hi : ¬ (dst ≤ i + m ∧ i + m < dst + b) := by omega
  simp [hi]

theorem apply_lt (h : dst + b ≤ m) (hn : n < 2 ^ m) : apply b src dst n < 2 ^ m := by
  have hdiv : apply b src dst n / 2 ^ m = 0 := by rw [apply_div h, Nat.div_eq_of_lt hn]
  exact (Nat.div_eq_zero_iff.mp hdiv).resolve_left (by positivity)

theorem mem_block {q : ℕ} : n ∈ Set.Ico (q * 2 ^ m) ((q + 1) * 2 ^ m) ↔ n / 2 ^ m = q := by
  rw [Set.mem_Ico, Nat.div_eq_iff (by positivity)]
  have hpos : 0 < 2 ^ m := by positivity
  rw [Nat.add_mul]
  omega

theorem image_block (hdisj : Disjoint b src dst) (h : dst + b ≤ m) (q : ℕ) :
    apply b src dst '' Set.Ico (q * 2 ^ m) ((q + 1) * 2 ^ m)
      = Set.Ico (q * 2 ^ m) ((q + 1) * 2 ^ m) := by
  ext n
  constructor
  · rintro ⟨k, hk, rfl⟩
    rw [mem_block] at hk ⊢
    rw [apply_div h, hk]
  · intro hn
    refine ⟨apply b src dst n, ?_, apply_apply hdisj n⟩
    rw [mem_block] at hn ⊢
    rw [apply_div h, hn]

/-! ### Runs -/

theorem testBit_run {q k i : ℕ} (hk : k < 2 ^ m) :
    (q * 2 ^ m + k).testBit i = if i < m then k.testBit i else q.testBit (i - m) := by
  rw [Nat.mul_comm, Nat.testBit_two_pow_mul_add q hk]

theorem apply_run (hsrc : m ≤ src) (hdst : m ≤ dst) (q : ℕ) :
    ∃ q', ∀ k < 2 ^ m, apply b src dst (q * 2 ^ m + k) = q' * 2 ^ m + k := by
  refine ⟨apply b (src - m) (dst - m) q, fun k hk => Nat.eq_of_testBit_eq fun i => ?_⟩
  rw [testBit_apply, testBit_run hk, testBit_run hk, testBit_run hk]
  by_cases hi : i < m
  · simp [hi, show ¬ (dst ≤ i ∧ i < dst + b) by omega]
  rw [if_neg hi, if_neg (by omega), if_neg hi, testBit_apply]
  have hiff : (dst ≤ i ∧ i < dst + b) ↔ (dst - m ≤ i - m ∧ i - m < dst - m + b) := by omega
  by_cases hd : dst ≤ i ∧ i < dst + b
  · have hpos : i - dst + src - m = i - m - (dst - m) + (src - m) := by omega
    simp only [hd, hiff.mp hd, and_self, decide_true, hpos]
  · simp only [hd, mt hiff.mpr hd, decide_false, Bool.false_and]

/-! ### Columns -/

/-- The field at `dst`, of a number made up of a part above `src` and one below: the low bits
of the high part are added to it. -/
theorem apply_column {r c : ℕ} (hb : dst + b ≤ src) (hc : c < 2 ^ src) :
    apply b src dst (r * 2 ^ src + c) % 2 ^ src / 2 ^ dst = c / 2 ^ dst ^^^ r % 2 ^ b := by
  refine Nat.eq_of_testBit_eq fun i => ?_
  rw [Nat.testBit_div_two_pow, Nat.testBit_mod_two_pow, testBit_apply, testBit_run hc,
    testBit_run hc, Nat.testBit_xor, Nat.testBit_div_two_pow, Nat.testBit_mod_two_pow]
  by_cases hlt : i + dst < src
  · by_cases hib : i < b
    · simp [hlt, hib, show i + dst < dst + b by omega]
    · simp [hlt, hib, show ¬ i + dst < dst + b by omega]
  · have hcbit : c.testBit (i + dst) = false :=
      Nat.testBit_lt_two_pow (hc.trans_le (Nat.pow_le_pow_right two_pos (by omega)))
    simp [hlt, hcbit, show ¬ i < b by omega]

/-- Distinct residues are added to distinct effect. -/
theorem xor_left_injective (x : ℕ) : Function.Injective fun y => x ^^^ y := by
  intro y y' h
  have h' : x ^^^ (x ^^^ y) = x ^^^ (x ^^^ y') := congrArg (x ^^^ ·) h
  rwa [← Nat.xor_assoc, ← Nat.xor_assoc, Nat.xor_self, Nat.zero_xor, Nat.zero_xor] at h'

end FieldXor
