/-
Slices of a list in the sense of Python.

* `slice` — `l[start:stop]`, where an index below zero counts from the end;
* `slice_eq`, `length_slice` — a slice whose bounds lie inside the list;
* `length_slice_le` — a slice is never longer than its upper bound.
-/
import Mathlib

namespace PySlice

variable {α : Type}

/-- The place in a list of `n` elements that the bound `i` of a slice stands for. -/
def sliceIndex (n : ℕ) (i : ℤ) : ℕ := if i < 0 then (i + n).toNat else min i.toNat n

/-- `l[start:stop]`. -/
def slice (l : List α) (start stop : ℤ) : List α :=
  (l.take (sliceIndex l.length stop)).drop (sliceIndex l.length start)

theorem sliceIndex_natCast {n i : ℕ} (h : i ≤ n) : sliceIndex n i = i := by
  have hnot : ¬ (i : ℤ) < 0 := by omega
  rw [sliceIndex, if_neg hnot, Int.toNat_natCast, Nat.min_eq_left h]

/-- A slice whose bounds lie inside the list. -/
theorem slice_eq {l : List α} {start stop : ℕ} (hle : start ≤ stop) (hstop : stop ≤ l.length) :
    slice l start stop = (l.take stop).drop start := by
  rw [slice, sliceIndex_natCast hstop, sliceIndex_natCast (hle.trans hstop)]

/-- `l[:-k]` leaves out the last `k` elements. -/
theorem slice_neg {l : List α} {k : ℕ} (hk : 0 < k) : slice l 0 (-k) = l.take (l.length - k) := by
  have hstop : sliceIndex l.length (-k) = l.length - k := by
    rw [sliceIndex, if_pos (by omega)]
    omega
  rw [slice, hstop, ← Nat.cast_zero, sliceIndex_natCast (Nat.zero_le _), List.drop_zero]

/-- A slice is never longer than its upper bound. -/
theorem length_slice_le (l : List α) (start : ℤ) (stop : ℕ) :
    (slice l start stop).length ≤ stop := by
  have hindex : sliceIndex l.length stop ≤ stop := by
    rw [sliceIndex, if_neg (by omega), Int.toNat_natCast]
    exact Nat.min_le_left ..
  rw [slice, List.length_drop, List.length_take]
  omega

end PySlice
