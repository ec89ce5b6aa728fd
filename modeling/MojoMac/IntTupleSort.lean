/-
Merge sort of the elements of a tuple (`layout/int_tuple.mojo`).

The elements stand for values of some type, and the comparison that the sort is given for a
total order on them.  On equal elements the merge takes the one on the right, so that it is a
list merge with its arguments exchanged.

* `IntTuple.merge_spec` — merging two tuples;
* `IntTuple.sorted_spec` — the result has the same elements, in order.
-/
import MojoMac.IntTupleCoordinates

open List

/-! ### Slices with one bound -/

namespace Slice

theorem range_one {fuel k : ℕ} (h : k ≤ fuel) (start : ℕ) :
    range fuel start (start + k) 1 = (List.range' start k).map Int.ofNat := by
  induction fuel generalizing start k with
  | zero =>
    obtain rfl : k = 0 := by omega
    rfl
  | succ fuel ih =>
    cases k with
    | zero => simp [range]
    | succ k =>
      have hrest := ih (show k ≤ fuel by omega) (start + 1)
      rw [range, if_pos (by omega), range'_succ, map_cons, ← hrest]
      push_cast
      simp [add_assoc, add_comm (1 : ℤ)]

theorem positions_from {i length : ℕ} (h : i ≤ length) :
    positions ⟨some i, none, none⟩ length = List.range' i (length - i) := by
  have hclamp : clamp length true i = i := by
    simp only [clamp, if_true]
    split_ifs <;> omega
  have hrange := range_one (show length - i ≤ ((length : ℤ) - i).natAbs by omega) i
  rw [show (i : ℤ) + (length - i : ℕ) = length by omega] at hrange
  simp only [positions, indices, Option.getD_none, one_pos, decide_true, hclamp, if_true, hrange,
    map_map]
  exact map_id _

theorem positions_to {i length : ℕ} (h : i ≤ length) :
    positions ⟨none, some i, none⟩ length = List.range' 0 i := by
  have hclamp : clamp length true i = i := by
    simp only [clamp, if_true]
    split_ifs <;> omega
  have hrange := range_one (show i ≤ ((i : ℤ) - 0).natAbs by omega) 0
  rw [Nat.cast_zero, zero_add] at hrange
  simp only [positions, indices, Option.getD_none, one_pos, decide_true, hclamp, if_true, hrange,
    map_map]
  exact map_id _

end Slice

namespace IntTuple

open Nest

theorem filterMap_range' {α : Type} (xs : List α) (i k : ℕ) :
    (List.range' i k).filterMap (xs[·]?) = (xs.drop i).take k := by
  induction k generalizing i with
  | zero => simp
  | succ k ih =>
    rw [range'_succ, filterMap_cons, ih]
    by_cases hi : i < xs.length
    · rw [getElem?_eq_getElem hi, drop_eq_getElem_cons hi, take_succ_cons]
    · rw [getElem?_eq_none (not_lt.mp hi), drop_eq_nil_of_le (not_lt.mp hi),
        drop_eq_nil_of_le (by omega)]
      simp

section Slices

variable {e : IntTuple} {ts us : List Nest}

theorem slice_from (h : Exact e (node ts)) {i : ℕ} (hi : i ≤ ts.length) :
    ∃ r, e.slice ⟨some i, none, none⟩ = some r ∧ Exact r (node (ts.drop i)) := by
  obtain ⟨r, hr, hd⟩ := slice_spec h ⟨some i, none, none⟩
  rw [children_node, Slice.positions_from hi, select, children_node, filterMap_range',
    take_of_length_le (by simp)] at hd
  exact ⟨r, hr, hd⟩

theorem slice_to (h : Exact e (node ts)) {i : ℕ} (hi : i ≤ ts.length) :
    ∃ r, e.slice ⟨none, some i, none⟩ = some r ∧ Exact r (node (ts.take i)) := by
  obtain ⟨r, hr, hd⟩ := slice_spec h ⟨none, some i, none⟩
  rw [children_node, Slice.positions_to hi, select, children_node, filterMap_range',
    drop_zero] at hd
  exact ⟨r, hr, hd⟩

theorem extend_exact {x : IntTuple} (h : Exact e (node ts)) (hx : Exact x (node us)) :
    ∃ r, e.extend x = some r ∧ Exact r (node (ts ++ us)) := by
  by_cases hus : us = []
  · subst hus
    have hlen : x.len = some 0 := hx.len
    exact ⟨e, by simp [extend, hlen], by rwa [append_nil]⟩
  obtain ⟨c, hc, hd, hlen⟩ := extend_spec h hx le_rfl le_rfl hus
  refine ⟨⟨c⟩, hc, ?_⟩
  have hext : Nest.extend (node ts) (node us) = node (ts ++ us) := by
    cases ts with
    | nil => simp [Nest.extend]
    | cons t ts => simp [Nest.extend, hus]
  rw [hext] at hd
  rw [Exact, show (IntTuple.mk c).size = e.size + x.size - 1 from hlen]
  exact hd.denotes

end Slices

/-! ### Merging -/

section Merge

variable {α : Type} {cmp : IntTuple → IntTuple → Option Bool} {repr : α → Nest}
  {le : α → α → Bool} {left right : IntTuple} {as bs : List α}

/-- The comparison decides whether the first value is strictly below the second. -/
def Compares (cmp : IntTuple → IntTuple → Option Bool) (repr : α → Nest) (le : α → α → Bool) :
    Prop :=
  ∀ a b x y, Exact x (repr a) → Exact y (repr b) → cmp x y = some (! le b a)

theorem get_map (h : Exact left (node (as.map repr))) {i : ℕ} (hi : i < as.length) :
    ∃ x, left.get i = some x ∧ Exact x (repr as[i]) :=
  Denotes.getitem h (by simp [hi])

/-- The loop leaves what it did not take of the two tuples. -/
theorem mergeFrom_spec (hcmp : Compares cmp repr le) (hl : Exact left (node (as.map repr)))
    (hr : Exact right (node (bs.map repr))) {fuel i j : ℕ} (hi : i ≤ as.length)
    (hj : j ≤ bs.length) (hfuel : as.length - i + (bs.length - j) ≤ fuel) {result : IntTuple}
    {acc : List α} (hres : Exact result (node (acc.map repr))) :
    ∃ result' i' j' acc', mergeFrom cmp left right fuel i j result = some (result', i', j') ∧
      i' ≤ as.length ∧ j' ≤ bs.length ∧ Exact result' (node (acc'.map repr)) ∧
      acc' ++ as.drop i' ++ bs.drop j' = acc ++ (bs.drop j).merge (as.drop i) le := by
  have hll : left.len = some as.length := by simpa using hl.len
  have hrl : right.len = some bs.length := by simpa using hr.len
  induction fuel generalizing i j result acc with
  | zero =>
    refine ⟨result, i, j, acc, rfl, hi, hj, hres, ?_⟩
    rw [drop_eq_nil_of_le (show as.length ≤ i by omega)]
    simp
  | succ fuel ih =>
    simp only [mergeFrom, hll, hrl, Option.bind_eq_bind, Option.bind_some]
    by_cases hlt : i < as.length ∧ j < bs.length
    · obtain ⟨x, hx, hxa⟩ := get_map hl hlt.1
      obtain ⟨y, hy, hyb⟩ := get_map hr hlt.2
      simp only [if_pos hlt, hx, hy, hcmp _ _ x y hxa hyb, Option.bind_some]
      rw [drop_eq_getElem_cons hlt.1, drop_eq_getElem_cons hlt.2, cons_merge_cons]
      cases hle : le bs[j] as[i] with
      | false =>
        obtain ⟨r, hr', hd⟩ := append_exact hres hxa
        have hd' : Exact r (node ((acc ++ [as[i]]).map repr)) := by simpa using hd
        obtain ⟨result', i', j', acc', hrun, hi', hj', hres', heq⟩ :=
          ih (i := i + 1) (by omega) hj (by omega) hd'
        refine ⟨result', i', j', acc', by simpa [hr'] using hrun, hi', hj', hres', ?_⟩
        rw [heq, drop_eq_getElem_cons hlt.2]
        simp
      | true =>
        obtain ⟨r, hr', hd⟩ := append_exact hres hyb
        have hd' : Exact r (node ((acc ++ [bs[j]]).map repr)) := by simpa using hd
        obtain ⟨result', i', j', acc', hrun, hi', hj', hres', heq⟩ :=
          ih (j := j + 1) hi (by omega) (by omega) hd'
        refine ⟨result', i', j', acc', by simpa [hr'] using hrun, hi', hj', hres', ?_⟩
        rw [heq, drop_eq_getElem_cons hlt.1]
        simp
    · -- one of the two tuples is used up
      refine ⟨result, i, j, acc, by simp [if_neg hlt], hi, hj, hres, ?_⟩
      by_cases hli : i < as.length
      · rw [drop_eq_nil_of_le (show bs.length ≤ j by omega)]
        simp
      · rw [drop_eq_nil_of_le (show as.length ≤ i by omega)]
        simp

theorem merge_spec (hcmp : Compares cmp repr le) (hl : Exact left (node (as.map repr)))
    (hr : Exact right (node (bs.map repr))) :
    ∃ r, merge cmp left right = some r ∧ Exact r (node ((bs.merge as le).map repr)) := by
  have hll : left.len = some as.length := by simpa using hl.len
  have hrl : right.len = some bs.length := by simpa using hr.len
  have hempty : Exact empty (node (([] : List α).map repr)) := exact_empty
  obtain ⟨r, i, j, acc, hrun, hi, hj, hacc, heq⟩ := mergeFrom_spec hcmp hl hr (Nat.zero_le _)
    (Nat.zero_le _) (show as.length - 0 + (bs.length - 0) ≤ as.length + bs.length by omega) hempty
  obtain ⟨x, hx, hxd⟩ := slice_from hl (show i ≤ (as.map repr).length by simpa using hi)
  obtain ⟨y, hy, hyd⟩ := slice_from hr (show j ≤ (bs.map repr).length by simpa using hj)
  obtain ⟨r', hr', hd'⟩ := extend_exact hacc hxd
  obtain ⟨r'', hr'', hd''⟩ := extend_exact hd' hyd
  refine ⟨r'', by simp [merge, hll, hrl, hrun, hx, hy, hr', hr''], ?_⟩
  rw [← map_drop, ← map_drop, ← map_append, ← map_append, heq] at hd''
  simpa using hd''

/-- **Sorting.**  The same elements, in order. -/
theorem sorted_spec (hcmp : Compares cmp repr le)
    (htrans : ∀ a b c, le a b = true → le b c = true → le a c = true)
    (htotal : ∀ a b, (le a b || le b a) = true) {tuple : IntTuple} {fuel : ℕ}
    (h : Exact tuple (node (as.map repr))) (hfuel : as.length < fuel) :
    ∃ (r : IntTuple) (as' : List α), sorted cmp fuel tuple = some r ∧ Exact r (node (as'.map repr)) ∧ as'.Perm as ∧
      as'.Pairwise fun a b => le a b = true := by
  induction fuel generalizing tuple as with
  | zero => omega
  | succ fuel ih =>
    have hlen : tuple.len = some as.length := by simpa using h.len
    simp only [sorted, hlen, Option.bind_eq_bind, Option.bind_some]
    by_cases hle : as.length ≤ 1
    · refine ⟨tuple, as, by rw [if_pos hle, ownedCopy_eq], h, Perm.refl _, ?_⟩
      match as, hle with
      | [], _ => exact Pairwise.nil
      | [a], _ => exact pairwise_singleton _ _
    rw [if_neg hle]
    have hmid : as.length / 2 ≤ (as.map repr).length := by
      rw [length_map]
      omega
    obtain ⟨x, hx, hxd⟩ := slice_to h hmid
    obtain ⟨y, hy, hyd⟩ := slice_from h hmid
    rw [← map_take] at hxd
    rw [← map_drop] at hyd
    obtain ⟨x', as₁, hx', hxd', hperm₁, hsort₁⟩ := ih hxd (by rw [length_take]; omega)
    obtain ⟨y', as₂, hy', hyd', hperm₂, hsort₂⟩ := ih hyd (by rw [length_drop]; omega)
    obtain ⟨r, hr, hrd⟩ := merge_spec hcmp hxd' hyd'
    refine ⟨r, as₂.merge as₁ le, by simp only [hx, hy, hx', hy', hr, Option.bind_some], hrd, ?_,
      pairwise_merge htrans htotal _ _ hsort₂ hsort₁⟩
    calc (as₂.merge as₁ le).Perm (as₂ ++ as₁) := merge_perm_append le
      _ |>.Perm (as₁ ++ as₂) := perm_append_comm
      _ |>.Perm (as.take (as.length / 2) ++ as.drop (as.length / 2)) := hperm₁.append hperm₂
      _ |>.Perm as := by rw [take_append_drop]

end Merge

end IntTuple
