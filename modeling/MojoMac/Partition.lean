/-
Partition around the element that belongs at an index (`builtin/sort.mojo`).

* `Span.partitionOnce` — the `_partition` that brings one pivot to its place;
* `Span.partition` — the `_partition` that goes on in the part with index `k`;
* `Span.partition_spec` — the first `k` elements become `k` smallest ones.
-/
import MojoMac.HeapSort

open List

namespace Span

variable {α : Type} (cmpFn : α → α → Bool)

section Loop

variable {cmpFn} {span : List α} {i j k p : ℕ}

/-- A swap that leaves the pivot alone, seen by comparisons with it. -/
theorem less_swapElements (hi : i < span.length) (hj : j < span.length) (hip : p ≠ i)
    (hjp : p ≠ j) : less cmpFn (swapElements span i j) k p
      = less cmpFn span (if k = j then i else if k = i then j else k) p := by
  simp only [less, getElem?_swapElements hi hj, if_neg hip, if_neg hjp]
  split_ifs <;> rfl

variable (cmpFn)

/-- The loop of `_partition`, which ends with `left = right`: the span and `right`. -/
def partitionLoop (span : List α) (left right pivotIndex : ℕ) (hright : right < pivotIndex)
    (hpivot : pivotIndex < span.length) : List α × ℕ :=
  if hlt : left < right then
    if less cmpFn span left pivotIndex then
      partitionLoop span (left + 1) right pivotIndex hright hpivot
    else if ¬ less cmpFn span right pivotIndex then
      partitionLoop span left (right - 1) pivotIndex (by omega) hpivot
    else
      partitionLoop (swapElements span left right) left right pivotIndex hright
        ((length_swapElements span left right).symm ▸ hpivot)
  else (span, right)
  -- after a swap the element at `left` is less than the pivot
  termination_by 2 * (right - left) + if less cmpFn span left pivotIndex then 0 else 1
  decreasing_by
    · split_ifs <;> omega
    · split_ifs
      omega
    · rw [less_swapElements (by omega) (by omega) (by omega) (by omega)]
      simp_all

/-- What the loop keeps: all before `left` is less than the pivot, nothing after `right`. -/
structure Parted (span : List α) (left right p : ℕ) : Prop where
  below : ∀ i < left, less cmpFn span i p = true
  above : ∀ i, right < i → i < p → less cmpFn span i p = false

variable {cmpFn} {left right : ℕ}

theorem partitionLoop_spec (hright : right < p) (hpivot : p < span.length) (hle : left ≤ right)
    (h : Parted cmpFn span left right p) :
    let r := partitionLoop cmpFn span left right p hright hpivot
    r.1.Perm span ∧ r.2 < p ∧ Parted cmpFn r.1 r.2 r.2 p := by
  fun_induction partitionLoop cmpFn span left right p hright hpivot with
  | case1 span left right hright hpivot hlt hl ih =>
    refine ih hlt ⟨fun i hi => ?_, h.above⟩
    rcases Nat.lt_succ_iff_lt_or_eq.mp hi with hi | rfl
    · exact h.below i hi
    · exact hl
  | case2 span left right hright hpivot hlt hl hr ih =>
    refine ih (by omega) ⟨h.below, fun i hi hip => ?_⟩
    rcases Nat.lt_or_eq_of_le (by omega : right ≤ i) with hi | rfl
    · exact h.above i hi hip
    · simpa using hr
  | case3 span left right hright hpivot hlt hl hr ih =>
    -- the swap is outside of what is known
    have hswap : ∀ k, less cmpFn (swapElements span left right) k p = _ := fun k =>
      less_swapElements (by omega) (by omega) (by omega) (by omega)
    refine (ih hle ⟨fun i hi => ?_, fun i hi hip => ?_⟩).imp_left
      fun hperm => hperm.trans (swapElements_perm span left right)
    · rw [hswap, if_neg (by omega), if_neg (by omega)]
      exact h.below i hi
    · rw [hswap, if_neg (by omega), if_neg (by omega)]
      exact h.above i hi hip
  | case4 span left right hright hpivot hlt =>
    obtain rfl : left = right := by omega
    exact ⟨.rfl, hright, h⟩

/-- The pivot `x` between the two parts. -/
theorem exists_swap_pivot {m : ℕ} (hm : m ≤ p) (hlen : span.length = p + 1)
    (hless : ∀ i < p, less cmpFn span i p = decide (i < m)) :
    ∃ low x high, swapElements span p m = low ++ x :: high ∧ low.length = m ∧
      (∀ y ∈ low, cmpFn y x = true) ∧ ∀ y ∈ high, cmpFn y x = false := by
  obtain ⟨s, hs⟩ : ∃ s, swapElements span p m = s := ⟨_, rfl⟩
  have hsl : s.length = p + 1 := by rw [← hs, length_swapElements, hlen]
  have hcmp : ∀ i (hi : i < s.length), i ≠ m → cmpFn s[i] s[m] = decide (i < m) := by
    intro i hi hne
    have heq : less cmpFn s i m = cmpFn s[i] s[m] := less_eq hi (by omega)
    rw [← heq, less, ← hs, getElem?_swapElements (by omega) (by omega), getElem?_swapElements (by
      omega) (by omega), if_neg hne, if_pos rfl]
    by_cases hip : i = p
    · rw [if_pos hip, decide_eq_false (by omega)]
      exact (hless m (by omega)).trans (decide_eq_false (lt_irrefl m))
    · rw [if_neg hip]
      exact hless i (by omega)
  refine ⟨s.take m, s[m], s.drop (m + 1), ?_, by simp; omega, fun y hy => ?_, fun y hy => ?_⟩
  · rw [hs, getElem_cons_drop, take_append_drop]
  · obtain ⟨i, hi, rfl⟩ := mem_take_iff_getElem.mp hy
    rw [hcmp i (by omega) (by omega), decide_eq_true (by omega)]
  · obtain ⟨i, hi, rfl⟩ := mem_drop_iff_getElem.mp hy
    rw [hcmp _ (by omega) (by omega), decide_eq_false (by omega)]

end Loop

/-- The first `_partition`: the span and the place of the pivot. -/
def partitionOnce (span : List α) : List α × ℕ :=
  if h : span.length ≤ 1 then (span, 0)
  else
    let pivotIndex := span.length - 1
    let (s, right) := partitionLoop cmpFn (swapElements span (span.length / 2) pivotIndex) 0
      (span.length - 2) pivotIndex (by omega) (by rw [length_swapElements]; omega)
    let right := if less cmpFn s right pivotIndex then right + 1 else right
    (swapElements s pivotIndex right, right)

variable {cmpFn} {span : List α} {k : ℕ}

variable (cmpFn) in
/-- The pivot `x` at its place. -/
theorem partitionOnce_spec (hne : span ≠ []) :
    ∃ low x high, partitionOnce cmpFn span = (low ++ x :: high, low.length) ∧
      (low ++ x :: high).Perm span ∧ (∀ y ∈ low, cmpFn y x = true) ∧
      ∀ y ∈ high, cmpFn y x = false := by
  unfold partitionOnce
  split_ifs with h1
  · obtain ⟨x, rfl⟩ := length_eq_one_iff.mp (le_antisymm h1 (length_pos_iff.mpr hne))
    exact ⟨[], x, [], rfl, .rfl, by simp, by simp⟩
  obtain ⟨p, hp⟩ : ∃ p, span.length = p + 1 := ⟨span.length - 1, by omega⟩
  have hlen := length_swapElements span (span.length / 2) p
  simp only [hp, Nat.add_sub_cancel] at hlen ⊢
  obtain ⟨hperm, hr, hbelow, habove⟩ := partitionLoop_spec (by omega : p + 1 - 2 < p)
    (by rw [hlen]; omega) (Nat.zero_le _) (⟨by simp, by omega⟩ : Parted cmpFn _ 0 _ p)
  generalize partitionLoop cmpFn (swapElements span ((p + 1) / 2) p) 0 _ p _ _ = l at *
  obtain ⟨s, right⟩ := l
  have hless : ∀ i < p, less cmpFn s i p
      = decide (i < if less cmpFn s right p then right + 1 else right) := by
    intro i hi
    rcases lt_trichotomy i right with hlt | rfl | hgt
    · rw [hbelow i hlt, decide_eq_true (by split_ifs <;> omega)]
    · cases less cmpFn s i p <;> simp
    · rw [habove i hgt hi, decide_eq_false (by split_ifs <;> omega)]
  obtain ⟨low, x, high, hs, hlow, hx⟩ :=
    exists_swap_pivot (by split_ifs <;> omega) (hperm.length_eq.trans hlen) hless
  refine ⟨low, x, high, by rw [hs, hlow], ?_, hx⟩
  rw [← hs]
  exact (swapElements_perm s p _).trans (hperm.trans (swapElements_perm span _ _))

variable (cmpFn) in
theorem partitionOnce_bounds (hk : k < span.length) :
    (partitionOnce cmpFn span).1.length = span.length ∧
      (partitionOnce cmpFn span).2 < span.length := by
  obtain ⟨low, x, high, heq, hperm, -⟩ :=
    partitionOnce_spec cmpFn (ne_nil_of_length_pos (Nat.zero_lt_of_lt hk))
  rw [← hperm.length_eq, heq]
  simp

variable (cmpFn) in
/-- `partition`: the part with the index `k` is partitioned further. -/
def partition (span : List α) (k : ℕ) (hk : k < span.length) : List α :=
  let s := (partitionOnce cmpFn span).1
  let pivot := (partitionOnce cmpFn span).2
  have hbounds : s.length = span.length ∧ pivot < span.length := partitionOnce_bounds cmpFn hk
  if heq : pivot = k then s
  else if hlt : k < pivot then
    partition (s.take pivot) k (by rw [List.length_take]; omega) ++ s.drop pivot
  else
    s.take (pivot + 1) ++
      partition (s.drop (pivot + 1)) (k - (pivot + 1)) (by rw [List.length_drop]; omega)
  termination_by span.length
  decreasing_by
    all_goals
      have hbounds := partitionOnce_bounds cmpFn hk
      simp only [List.length_take, List.length_drop]
      omega

theorem exists_pivot (h : StrictWeakOrder cmpFn) (hk : k < span.length) :
    ∃ low x high, partitionOnce cmpFn span = (low ++ x :: high, low.length) ∧
      (low ++ x :: high).Perm span ∧ (∀ z ∈ high, cmpFn z x = false) ∧
      ∀ y ∈ low, ∀ z ∈ x :: high, cmpFn z y = false := by
  obtain ⟨low, x, high, heq, hperm, hlow, hhigh⟩ :=
    partitionOnce_spec cmpFn (ne_nil_of_length_pos (Nat.zero_lt_of_lt hk))
  refine ⟨low, x, high, heq, hperm, hhigh, fun y hy z hz => ?_⟩
  rcases mem_cons.mp hz with rfl | hz
  · exact h.asymm (hlow y hy)
  · exact h.neg_trans (hhigh z hz) (h.asymm (hlow y hy))

/-- **Partition** ends with no element before index `k` greater, and none after it less, than
the one at `k`: the first `k` elements are `k` smallest ones. -/
theorem partition_spec (h : StrictWeakOrder cmpFn) (hk : k < span.length) :
    ∃ low x high, partition cmpFn span k hk = low ++ x :: high ∧ low.length = k ∧
      (low ++ x :: high).Perm span ∧ (∀ z ∈ high, cmpFn z x = false) ∧
      ∀ y ∈ low, ∀ z ∈ x :: high, cmpFn z y = false := by
  fun_induction partition cmpFn span k hk with
  | case1 span s pivot hk =>
    obtain ⟨low, x, high, heq, hperm, hx⟩ := exists_pivot h hk
    exact ⟨low, x, high, by simp [s, heq], by simp [pivot, heq], hperm, hx⟩
  | case2 span k hk s pivot hb hne hlt ih =>
    obtain ⟨low, x, high, heq, hperm, -, hsplit⟩ := exists_pivot h hk
    obtain ⟨low', x', high', heq', hlen', hperm', hhigh', hsplit'⟩ := ih
    obtain ⟨hs, hpivot⟩ : s = low ++ x :: high ∧ pivot = low.length := by simp [s, pivot, heq]
    rw [hs, hpivot, take_left] at hperm'
    refine ⟨low', x', high' ++ x :: high, by rw [heq', hs, hpivot]; simp, hlen', ?_, ?_, ?_⟩
    · simpa using (hperm'.append_right (x :: high)).trans hperm
    · intro z hz
      rcases mem_append.mp hz with hz | hz
      · exact hhigh' z hz
      · exact hsplit x' (hperm'.mem_iff.mp (by simp)) z hz
    · intro y hy z hz
      rcases mem_append.mp (cons_append ▸ hz : z ∈ (x' :: high') ++ x :: high) with hz | hz
      · exact hsplit' y hy z hz
      · exact hsplit y (hperm'.mem_iff.mp (by simp [hy])) z hz
  | case3 span k hk s pivot hb hne hlt ih =>
    obtain ⟨low, x, high, heq, hperm, hhigh, hsplit⟩ := exists_pivot h hk
    obtain ⟨low', x', high', heq', hlen', hperm', hhigh', hsplit'⟩ := ih
    obtain ⟨hs, hpivot⟩ : s = low ++ x :: high ∧ pivot = low.length := by simp [s, pivot, heq]
    rw [hs, hpivot, drop_length_add_append, drop_one, tail_cons] at hperm'
    refine ⟨low ++ x :: low', x', high', ?_, by simp; omega, ?_, hhigh', ?_⟩
    · rw [heq', hs, hpivot, take_length_add_append]
      simp
    · simpa using ((hperm'.cons x).append_left low).trans hperm
    intro y hy z hz
    have hzh : z ∈ high := hperm'.mem_iff.mp (mem_append_right low' hz)
    rcases mem_append.mp hy with hy | hy
    · exact hsplit y hy z (mem_cons_of_mem x hzh)
    rcases mem_cons.mp hy with rfl | hy
    · exact hhigh z hzh
    · exact hsplit' y hy z hz

/-- The theorem on three elements, where the second is asked for. -/
theorem partition_spec_three : ∃ low x high,
    partition (fun a b : ℤ => decide (a < b)) [3, 1, 2] 1 (by simp) = low ++ x :: high ∧
      low.length = 1 ∧ ∀ z ∈ high, ¬ z < x := by
  obtain ⟨low, x, high, heq, hlen, -, hhigh, -⟩ :=
    partition_spec strictWeakOrder_int (by simp : 1 < [(3 : ℤ), 1, 2].length)
  exact ⟨low, x, high, heq, hlen, fun z hz => of_decide_eq_false (hhigh z hz)⟩

end Span
