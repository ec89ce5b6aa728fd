/-
Heap sort (`builtin/sort.mojo`).

A span is the list of its elements; only indices inside of it are compared and swapped.

* `Span.heapSort` — `_heap_sort`, whose second loop sifts down over the whole span;
* `Span.heapSort_spec` — it permutes the span, but never puts a least element in front
  of greater ones.
-/
import Mathlib

open List

namespace Span

variable {α : Type}

/-! ### Orders and spans -/

variable (cmpFn : α → α → Bool)

/-- A strict weak order, by asymmetry and negative transitivity. -/
structure StrictWeakOrder : Prop where
  asymm : ∀ {a b}, cmpFn a b = true → cmpFn b a = false
  neg_trans : ∀ {a b c}, cmpFn a b = false → cmpFn b c = false → cmpFn a c = false

/-- No element is followed by one strictly less than it. -/
def Sorted (span : List α) : Prop :=
  span.Pairwise fun a b => cmpFn b a = false

/-- The comparison of two elements of a span. -/
def less (span : List α) (i j : ℕ) : Bool :=
  span[i]?.any fun a => span[j]?.any fun b => cmpFn a b

/-- `unsafe_swap_elements`. -/
def swapElements (span : List α) (i j : ℕ) : List α :=
  match span[i]?, span[j]? with
  | some a, some b => (span.set i b).set j a
  | _, _ => span

variable {span : List α}

section Swap

variable {cmpFn : α → α → Bool} {i j k : ℕ}

theorem less_eq (hi : i < span.length) (hj : j < span.length) :
    less cmpFn span i j = cmpFn span[i] span[j] := by
  simp [less, hi, hj]

theorem swapElements_perm (span : List α) (i j : ℕ) : (swapElements span i j).Perm span := by
  unfold swapElements
  split
  next a b ha hb =>
    obtain ⟨hi, rfl⟩ := List.getElem_of_getElem? ha
    obtain ⟨hj, rfl⟩ := List.getElem_of_getElem? hb
    exact set_set_perm hi hj
  next => rfl

theorem length_swapElements (span : List α) (i j : ℕ) :
    (swapElements span i j).length = span.length :=
  (swapElements_perm span i j).length_eq

theorem getElem?_swapElements (hi : i < span.length) (hj : j < span.length) :
    (swapElements span i j)[k]?
      = if k = j then span[i]? else if k = i then span[j]? else span[k]? := by
  simp only [swapElements, getElem?_eq_getElem hi, getElem?_eq_getElem hj,
    getElem?_set, length_set, hi, hj, if_true, @eq_comm _ k]

end Swap

/-! ### Heap sort -/

section HeapSort

variable (cmpFn : α → α → Bool)

/-- The right child when there is one and it is larger. -/
def largerChild (span : List α) (i : ℕ) : ℕ :=
  if i * 2 + 2 < span.length && less cmpFn span (i * 2 + 1) (i * 2 + 2) then i * 2 + 2
  else i * 2 + 1

/-- `_heap_sort_fix_down`. -/
def heapSortFixDown (span : List α) (i : ℕ) : List α :=
  if i * 2 + 1 < span.length then
    let j := largerChild cmpFn span i
    if less cmpFn span i j then heapSortFixDown (swapElements span j i) j else span
  else span
  termination_by span.length - i
  decreasing_by
    rw [length_swapElements, largerChild]
    split_ifs <;> omega

/-- `_heap_sort`: the first loop builds a heap, in the second `size` goes down to one. -/
def heapSort (span : List α) : List α :=
  let heap := (List.range (span.length / 2)).reverse.foldl (heapSortFixDown cmpFn) span
  (List.range' 1 (span.length - 1)).reverse.foldl
    (fun span size => heapSortFixDown cmpFn (swapElements span 0 size) 0) heap

variable {cmpFn}

/-- The chosen child is not less than the other one. -/
theorem largerChild_spec (h : StrictWeakOrder cmpFn) {i : ℕ} (hi : i * 2 + 1 < span.length) :
    (largerChild cmpFn span i = i * 2 + 1 ∧
      (i * 2 + 2 < span.length → less cmpFn span (i * 2 + 1) (i * 2 + 2) = false)) ∨
    largerChild cmpFn span i = i * 2 + 2 ∧ i * 2 + 2 < span.length ∧
      less cmpFn span (i * 2 + 2) (i * 2 + 1) = false := by
  by_cases h2 : i * 2 + 2 < span.length
  · by_cases hlt : less cmpFn span (i * 2 + 1) (i * 2 + 2) = true
    · refine .inr ⟨by simp [largerChild, h2, hlt], h2, ?_⟩
      rw [less_eq hi h2] at hlt
      rw [less_eq h2 hi, h.asymm hlt]
    · exact .inl ⟨by simp [largerChild, hlt], fun _ => Bool.eq_false_iff.mpr hlt⟩
  · exact .inl ⟨by simp [largerChild, h2], fun h2' => absurd h2' h2⟩

theorem heapSortFixDown_perm (span : List α) (i : ℕ) :
    (heapSortFixDown cmpFn span i).Perm span := by
  fun_induction heapSortFixDown cmpFn span i with
  | case1 span i h j hlt ih => exact ih.trans (swapElements_perm span j i)
  | case2 | case3 => rfl

/-- Before the children of `i` a sift changes at most `i`, and that only if there are
children. -/
theorem getElem?_heapSortFixDown (h : StrictWeakOrder cmpFn) {i k : ℕ}
    (hk : k < i * 2 + 1) (hi : k = i → span.length ≤ i * 2 + 1) :
    (heapSortFixDown cmpFn span i)[k]? = span[k]? := by
  fun_induction heapSortFixDown cmpFn span i with
  | case1 span i hlen j hlt ih =>
    have hj : i * 2 + 1 ≤ j ∧ j < span.length := by
      have := largerChild_spec h hlen
      omega
    have hne : k ≠ i := fun hk => absurd (hi hk) (by omega)
    rw [ih (by omega) (by omega), getElem?_swapElements (by omega) (by omega), if_neg hne,
      if_neg (by omega)]
  | case2 | case3 => rfl

/-- After a sift from the root, one of the other elements is not greater than the root. -/
theorem exists_not_less_root (h : StrictWeakOrder cmpFn) (hlen : 2 ≤ span.length) :
    ∃ k, 0 < k ∧ k < span.length ∧ less cmpFn (heapSortFixDown cmpFn span 0) 0 k = false := by
  rw [heapSortFixDown, if_pos (by omega)]
  dsimp only
  obtain ⟨j, hj⟩ : ∃ j, largerChild cmpFn span 0 = j := ⟨_, rfl⟩
  have hchild := largerChild_spec h (by omega : 0 * 2 + 1 < span.length)
  rw [hj] at hchild ⊢
  have hjl : 0 < j ∧ j < span.length := by omega
  split_ifs with hlt
  · have hlen' := length_swapElements span j 0
    -- at the root stands the child, in the other position the other child or the old root
    have hget : ∀ k, k ≤ 2 → (k = j → span.length ≤ 2) →
        (heapSortFixDown cmpFn (swapElements span j 0) j)[k]?
          = if k = 0 then span[j]? else if k = j then span[0]? else span[k]? := fun k hk hkj => by
      rw [getElem?_heapSortFixDown h (by omega) (by omega), getElem?_swapElements hjl.2 (by omega)]
    rcases hchild with ⟨rfl, hle⟩ | ⟨rfl, h2, hle⟩
    · by_cases h2 : 2 < span.length
      · exact ⟨2, two_pos, h2, by simpa [less, hget 0, hget 2] using hle h2⟩
      refine ⟨1, one_pos, hlen, ?_⟩
      have hge : less cmpFn span 1 0 = false := by
        rw [less_eq (by omega) hlen] at hlt
        rw [less_eq hlen (by omega), h.asymm hlt]
      simpa [less, hget 0, hget 1 one_le_two fun _ => by omega] using hge
    · exact ⟨1, one_pos, hlen, by simpa [less, hget 0, hget 1] using hle⟩
  · exact ⟨j, hjl.1, hjl.2, Bool.eq_false_iff.mpr hlt⟩

theorem foldl_perm {f : List α → ℕ → List α} (h : ∀ s x, (f s x).Perm s) (xs : List ℕ)
    (span : List α) : (xs.foldl f span).Perm span := by
  induction xs generalizing span with
  | nil => rfl
  | cons x xs ih => exact (ih _).trans (h span x)

variable (cmpFn) in
theorem heapSort_perm (span : List α) : (heapSort cmpFn span).Perm span :=
  (foldl_perm (fun s _ => (heapSortFixDown_perm _ 0).trans (swapElements_perm s 0 _)) _ _).trans
    (foldl_perm heapSortFixDown_perm _ _)

variable (cmpFn) in
/-- The last turn of the second loop sifts from the root. -/
theorem exists_heapSort_eq (hlen : 2 ≤ span.length) :
    ∃ s, s.length = span.length ∧ heapSort cmpFn span = heapSortFixDown cmpFn s 0 := by
  have hsplit : range' 1 (span.length - 1) = 1 :: range' 2 (span.length - 2) := by
    rw [show span.length - 1 = span.length - 2 + 1 by omega, range'_succ]
  rw [heapSort, hsplit, reverse_cons, foldl_append]
  refine ⟨_, ?_, rfl⟩
  rw [length_swapElements, (foldl_perm (fun s _ => (heapSortFixDown_perm _ 0).trans
    (swapElements_perm s 0 _)) _ _).length_eq, (foldl_perm heapSortFixDown_perm _ _).length_eq]

/-- **Heap sort** permutes every span.  It leaves a span without different elements sorted, and
one with a least element only when that is the only one. -/
theorem heapSort_spec (h : StrictWeakOrder cmpFn) (span : List α) :
    (heapSort cmpFn span).Perm span ∧
      ((∀ a ∈ span, ∀ b ∈ span, cmpFn a b = false) → Sorted cmpFn (heapSort cmpFn span)) ∧
      ∀ x rest, span.Perm (x :: rest) → (∀ y ∈ rest, cmpFn x y = true) →
        (Sorted cmpFn (heapSort cmpFn span) ↔ rest = []) := by
  have hperm := heapSort_perm cmpFn span
  refine ⟨hperm, fun hall => ?_, fun x rest hx hleast => ⟨fun hsorted => ?_, ?_⟩⟩
  · refine pairwise_of_forall_mem_list fun a ha b hb => ?_
    exact hall b (hperm.mem_iff.mp hb) a (hperm.mem_iff.mp ha)
  · by_contra hne
    have hlen : 2 ≤ span.length := by
      have := length_pos_iff.mpr hne
      simp [hx.length_eq]
      omega
    obtain ⟨s, hs, heq⟩ := exists_heapSort_eq cmpFn hlen
    obtain ⟨k, hk, hks, hnot⟩ := exists_not_less_root h (by omega : 2 ≤ s.length)
    rw [← heq] at hnot
    have hr := hperm.trans hx
    -- a sorted result begins with the least element
    obtain ⟨y, t, hyt⟩ := exists_cons_of_length_pos (by rw [hperm.length_eq]; omega)
    rw [hyt] at hr hsorted hnot
    obtain rfl : y = x := by
      rcases mem_cons.mp (hr.mem_iff.mp mem_cons_self) with hy | hy
      · exact hy
      · rcases mem_cons.mp (hr.mem_iff.mpr mem_cons_self) with hx | hx
        · exact hx.symm
        · have hle := rel_of_pairwise_cons hsorted hx
          exact absurd ((hleast y hy).symm.trans hle) (by simp)
    obtain ⟨k, rfl⟩ := Nat.exists_eq_succ_of_ne_zero hk.ne'
    have htl : k < t.length := by
      have := hr.length_eq.trans hx.length_eq.symm
      simp only [length_cons] at this
      omega
    rw [less_eq (by simp) (by simpa using htl)] at hnot
    exact absurd ((hleast _ (hr.cons_inv.mem_iff.mp (getElem_mem htl))).symm.trans hnot) (by simp)
  · rintro rfl
    rw [perm_singleton.mp (hperm.trans hx)]
    exact pairwise_singleton _ _

theorem strictWeakOrder_int : StrictWeakOrder fun a b : ℤ => decide (a < b) :=
  ⟨fun {a b} h => by simp at h ⊢; omega, fun {a b c} h h' => by simp at h h' ⊢; omega⟩

/-- The theorem on three and one. -/
theorem heapSort_spec_two :
    ¬ Sorted (fun a b : ℤ => decide (a < b)) (heapSort (fun a b => decide (a < b)) [3, 1]) :=
  ((heapSort_spec strictWeakOrder_int [3, 1]).2.2 1 [3] (.swap 1 3 []) (by simp)).not.mpr (by simp)

/-- Two elements in order are put out of order. -/
theorem heapSort_reverses_pair : heapSort (fun a b : ℕ => decide (a < b)) [1, 2] = [2, 1] := by
  have hleaf : ∀ a b : ℕ, heapSortFixDown (fun a b => decide (a < b)) [a, b] 1 = [a, b] :=
    fun a b => by rw [heapSortFixDown, if_neg (by simp)]
  have hroot : ∀ a b : ℕ, heapSortFixDown (fun a b => decide (a < b)) [a, b] 0
      = if a < b then [b, a] else [a, b] := fun a b => by
    rw [heapSortFixDown, if_pos (by simp)]
    simp [largerChild, less, swapElements, hleaf]
  simp [heapSort, swapElements, hroot]

end HeapSort

end Span
