/-
Bits of machine words, and vectors filled by a counted loop.

Facts about bit vectors of any width that word-level code rests on: the
population count as a count of positions, the lowest set bit isolated by
`x &&& (~~~x + 1)`, and the positions of the set bits in ascending order.

* `toNat_cpop` — the population count is the number of positions;
* `IsLowest.isolate` — `x &&& (~~~x + 1)` is the lowest set bit;
* `IsLowest.toNat_cpop_sub_one` — its position is the population count of its predecessor;
* `IsLowest.positions_eq` — clearing it removes the first position;
* `foldl_store_getElem` — the entries of a vector after a counted loop of stores.
-/
import Mathlib

open List hiding Vector

namespace WordBits

variable {w : ℕ} (x : BitVec w)

/-- The positions of the set bits, in ascending order. -/
def positions : List ℕ :=
  (List.range w).filter (x.getLsbD ·)

@[simp] theorem mem_positions {x : BitVec w} {i : ℕ} : i ∈ positions x ↔ x.getLsbD i = true := by
  simp only [positions, mem_filter, mem_range, and_iff_right_iff_imp]
  exact fun h => BitVec.lt_of_getLsbD h

theorem positions_pairwise : (positions x).Pairwise (· < ·) :=
  pairwise_lt_range.filter _

/-- Two ascending lists with the same members are equal. -/
theorem eq_of_ascending {l₁ l₂ : List ℕ} (h₁ : l₁.Pairwise (· < ·)) (h₂ : l₂.Pairwise (· < ·))
    (hmem : ∀ i, i ∈ l₁ ↔ i ∈ l₂) : l₁ = l₂ :=
  Perm.eq_of_pairwise' h₁ h₂ ((perm_ext_iff_of_nodup (h₁.imp ne_of_lt) (h₂.imp ne_of_lt)).mpr hmem)

theorem cpopNatRec_eq (k acc : ℕ) :
    x.cpopNatRec k acc = acc + ((range k).filter (x.getLsbD ·)).length := by
  induction k generalizing acc with
  | zero => simp
  | succ k ih =>
    rw [BitVec.cpopNatRec_succ, ih, range_succ, filter_append, length_append]
    cases hk : x.getLsbD k
    · simp [hk]
    · simp [hk]
      omega

theorem toNat_cpop : x.cpop.toNat = (positions x).length := by
  rw [BitVec.toNat_cpop, cpopNatRec_eq, zero_add, positions]

/-! ### The lowest set bit -/

/-- `k` is the position of the lowest set bit of `x`. -/
structure IsLowest (k : ℕ) : Prop where
  set : x.getLsbD k = true
  below : ∀ j < k, x.getLsbD j = false

theorem exists_isLowest {x : BitVec w} (hx : x ≠ 0) : ∃ k, IsLowest x k := by
  have hset : ∃ k, x.getLsbD k = true := by
    by_contra hnone
    push Not at hnone
    exact hx (BitVec.eq_of_getLsbD_eq fun i _ => by simpa using hnone i)
  exact ⟨Nat.find hset, Nat.find_spec hset, fun j hj => by simpa using Nat.find_min hset hj⟩

namespace IsLowest

variable {x : BitVec w} {k : ℕ}

theorem lt (h : IsLowest x k) : k < w :=
  BitVec.lt_of_getLsbD h.set

/-- `x & -x`, with the negation spelled as complement and increment. -/
theorem isolate (h : IsLowest x k) : x &&& (~~~x + 1) = BitVec.twoPow w k := by
  refine BitVec.eq_of_getLsbD_eq fun i hi => ?_
  have hneg : ~~~x + 1 = -x := (BitVec.neg_eq_not_add x).symm
  rw [hneg, BitVec.getLsbD_and, BitVec.getLsbD_neg, BitVec.getLsbD_twoPow]
  rcases lt_trichotomy i k with hik | rfl | hki
  · simp [h.below i hik, hik.ne']
  · have hnone : ¬ ∃ j < i, x.getLsbD j = true := by
      rintro ⟨j, hj, hset⟩
      exact absurd hset (by simp [h.below j hj])
    simp [h.set, hi, hnone]
  · have hsome : ∃ j < i, x.getLsbD j = true := ⟨k, hki, h.set⟩
    simp [hi, hsome, hki.ne]

theorem getLsbD_twoPow_sub_one (h : k < w) (i : ℕ) :
    (BitVec.twoPow w k - 1).getLsbD i = decide (i < k) := by
  have hone : (1 : BitVec w).toNat = 1 := by
    simp [Nat.mod_eq_of_lt (Nat.one_lt_two_pow (by omega : w ≠ 0))]
  have hpow : 2 ^ k < 2 ^ w := Nat.pow_lt_pow_right (by omega) h
  have hpos := Nat.two_pow_pos k
  have hnat : (BitVec.twoPow w k - 1).toNat = 2 ^ k - 1 := by
    rw [BitVec.toNat_sub, BitVec.toNat_twoPow, hone, Nat.mod_eq_of_lt hpow,
      (by omega : 2 ^ w - 1 + 2 ^ k = 2 ^ k - 1 + 2 ^ w), Nat.add_mod_right]
    exact Nat.mod_eq_of_lt (by omega)
  rw [← BitVec.testBit_toNat, hnat, Nat.testBit_two_pow_sub_one]

theorem toNat_cpop_sub_one (h : IsLowest x k) : (BitVec.twoPow w k - 1).cpop.toNat = k := by
  have hcount : positions (BitVec.twoPow w k - 1) = range k :=
    eq_of_ascending (positions_pairwise _) pairwise_lt_range fun i => by
      rw [mem_positions, getLsbD_twoPow_sub_one h.lt, decide_eq_true_eq, mem_range]
  rw [toNat_cpop, hcount, length_range]

theorem getLsbD_cleared (h : IsLowest x k) (i : ℕ) :
    (x &&& ~~~(BitVec.twoPow w k)).getLsbD i = (x.getLsbD i && decide (i ≠ k)) := by
  rw [BitVec.getLsbD_and, BitVec.getLsbD_not, BitVec.getLsbD_twoPow]
  by_cases hx : x.getLsbD i = true
  · simp [h.lt, BitVec.lt_of_getLsbD hx, eq_comm]
  · simp [hx]

theorem toNat_cleared_lt (h : IsLowest x k) : (x &&& ~~~(BitVec.twoPow w k)).toNat < x.toNat := by
  refine lt_of_le_of_ne ?_ fun heq => ?_
  · rw [BitVec.toNat_and]
    exact Nat.and_le_left
  · have hbit := h.getLsbD_cleared k
    rw [BitVec.eq_of_toNat_eq heq, h.set] at hbit
    exact absurd hbit (by simp)

/-- The lowest bit is the first position, and clearing it leaves the others. -/
theorem positions_eq (h : IsLowest x k) :
    positions x = k :: positions (x &&& ~~~(BitVec.twoPow w k)) := by
  refine eq_of_ascending (positions_pairwise x) ?_ fun i => ?_
  · refine Pairwise.cons (fun i hi => ?_) (positions_pairwise _)
    rw [mem_positions, h.getLsbD_cleared] at hi
    obtain ⟨hset, hne⟩ : x.getLsbD i = true ∧ i ≠ k := by simpa using hi
    refine lt_of_le_of_ne (not_lt.mp fun hlt => ?_) hne.symm
    exact absurd hset (by simp [h.below i hlt])
  · simp only [mem_positions, mem_cons, h.getLsbD_cleared]
    by_cases hik : i = k
    · simp [hik, h.set]
    · simp [hik]

end IsLowest

/-! ### Filling a vector -/

/-- Storing at the first `k` indices, one after the other. -/
theorem foldl_store_getElem {α : Type*} {n : ℕ} (val : ℕ → α) (res : Vector α n) (k i : ℕ)
    (hi : i < n) : ((range k).foldl (fun r j => r.setIfInBounds j (val j)) res)[i] =
      if i < k then val i else res[i] := by
  induction k with
  | zero => simp
  | succ k ih =>
    rw [range_succ, foldl_append, foldl_cons, foldl_nil, Vector.getElem_setIfInBounds, ih]
    rcases lt_trichotomy i k with h | rfl | h
    · rw [if_neg (by omega), if_pos h, if_pos (by omega)]
    · rw [if_pos rfl, if_pos (by omega)]
    · rw [if_neg (by omega), if_neg (by omega), if_neg (by omega)]

end WordBits
