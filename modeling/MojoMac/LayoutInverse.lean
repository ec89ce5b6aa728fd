/-
The right inverse of a layout (`layout/layout.mojo`).

`right_inverse` picks the modes of the coalesced layout by their strides and gives each the
weight that its digits have in an index.

* `Layout.findStride_spec`, `Layout.foldlM_rightInverse` — the two loops pick as
  `MixedRadix.picks` does;
* `Layout.rightInverse_spec` — the layout takes what the inverse finds for an offset back to
  the offset.
-/
import MojoMac.LayoutCoalesce
import MojoMac.ModeInverse

open MixedRadix List

namespace Layout

open Nest IntTuple

/-! ### Column-major strides of a flat shape -/

variable {j : ℕ}

theorem prefixesAll_leaves (vs : List ℤ) (q : ℤ) (hj : j < vs.length) :
    (prefixesAll (vs.map leaf) q)[j]? = some (leaf (q * (vs.take j).prod)) := by
  induction vs generalizing q j with
  | nil => simp at hj
  | cons v vs ih =>
    rw [map_cons, prefixesAll]
    cases j with
    | zero => simp
    | succ j =>
      have hsize : (leaf v).size = v := by simp [Nest.size]
      rw [getElem?_cons_succ, ih _ (by simpa using hj), hsize]
      simp [mul_assoc]

variable {ms : List Mode} {rstride : IntTuple}

theorem children_prefixes (vs : List ℤ) (hj : j < vs.length) :
    ((ofLeaves vs).prefixes 1).children[j]? = some (leaf (vs.take j).prod) := by
  have hall := prefixesAll_leaves vs 1 hj
  rw [one_mul] at hall
  match vs, hj with
  | [v], hj =>
    obtain rfl : j = 0 := by simpa using hj
    simp [ofLeaves]
  | v :: w :: vs, _ => simpa [ofLeaves] using hall

/-! ### The loops -/

section Loops

variable {flat : Layout}

section

variable (h : HasModes flat ms)

include h

theorem HasModes.len_eq : flat.len = some ms.length := by
  obtain ⟨⟨n, hs⟩, -⟩ := h
  have hlen : flat.shape.len = _ := hs.len
  simpa [Layout.len, children_ofLeaves] using hlen

theorem HasModes.shape_get (hj : j < ms.length) :
    ∃ x, flat.shape.get j = some x ∧ Exact x (leaf ms[j].1) := by
  obtain ⟨⟨n, hs⟩, -⟩ := h
  exact hs.getitem (by simp [children_ofLeaves, hj])

theorem HasModes.stride_get (hj : j < ms.length) :
    ∃ x, flat.stride.get j = some x ∧ Exact x (leaf ms[j].2) := by
  obtain ⟨-, n, hd⟩ := h
  exact hd.getitem (by simp [children_ofLeaves, hj])

/-- The inner loop, from mode `i` on. -/
theorem findStride_spec (q : ℤ) {i k : ℕ} (hk : i + k = ms.length) :
    findStride flat q (List.range' i k)
      = some (((ms.drop i).findIdx? fun m => m.2 == q).map (i + ·)) := by
  induction k generalizing i with
  | zero => simp [findStride, drop_eq_nil_of_le (show ms.length ≤ i by omega)]
  | succ k ih =>
    have hi : i < ms.length := by omega
    obtain ⟨x, hx, hxd⟩ := h.stride_get hi
    have hint := hxd.toInt
    have hrest := ih (i := i + 1) (by omega)
    rw [range'_succ, drop_eq_getElem_cons hi, findIdx?_cons]
    simp only [findStride, hx, hint, some_bind]
    by_cases hq : ms[i].2 = q
    · simp [hq]
    rw [if_neg hq, hrest]
    simp only [beq_iff_eq, hq, if_false, Option.map_map]
    congr 2
    funext j
    simp only [Function.comp_apply]
    omega

theorem findStride_range (q : ℤ) :
    findStride flat q (List.range ms.length) = some (ms.findIdx? fun m => m.2 == q) := by
  have hfind := findStride_spec h q (show 0 + ms.length = ms.length by omega)
  rw [← range_eq_range', drop_zero] at hfind
  simpa using hfind

end

section Step

variable {shape stride : IntTuple} {es rs : List ℤ} {q : ℤ}

/-- A turn that finds no mode changes nothing. -/
theorem rightInverseStep_none (h : HasModes flat ms)
    (hpick : ms.findIdx? (fun m => m.2 == q) = none) :
    rightInverseStep flat rstride (shape, stride, q) = some (shape, stride, q) := by
  simp only [rightInverseStep, h.len_eq, findStride_range h, hpick, some_bind]
  rfl

/-- Any other turn appends a mode, with the weight of its digits. -/
theorem rightInverseStep_some (h : HasModes flat ms)
    (hr : Exact rstride ((ofLeaves (ms.map Prod.fst)).prefixes 1))
    (hpick : ms.findIdx? (fun m => m.2 == q) = some j)
    (hshape : Exact shape (node (es.map leaf))) (hstride : Exact stride (node (rs.map leaf))) :
    ∃ shape' stride', rightInverseStep flat rstride (shape, stride, q)
        = some (shape', stride', q * (ms.getD j (1, 0)).1) ∧
      Exact shape' (node ((es ++ [(ms.getD j (1, 0)).1]).map leaf)) ∧
      Exact stride' (node ((rs ++ [MixedRadix.size (ms.take j)]).map leaf)) := by
  obtain ⟨hlt, -, -⟩ := findIdx?_stride hpick
  have hgetD : ms.getD j (1, 0) = ms[j] := by simp [hlt]
  obtain ⟨y, hy, hyd⟩ := h.shape_get hlt
  obtain ⟨z, hz, hzd⟩ := Denotes.getitem hr
    (children_prefixes (ms.map Prod.fst) (show j < (ms.map Prod.fst).length by simpa using hlt))
  have hz' : rstride.get j = some z := hz
  have hint := hyd.toInt
  obtain ⟨shape', hs', hsd'⟩ := append_exact hshape hyd
  obtain ⟨stride', hd', hdd'⟩ := append_exact hstride hzd
  rw [← map_take, ← size_eq_prod] at hdd'
  rw [hgetD]
  refine ⟨shape', stride', ?_, by simpa using hsd', by simpa using hdd'⟩
  simp only [rightInverseStep, h.len_eq, findStride_range h, hpick, hy, hz', hint, hs', hd',
    some_bind]
  rfl

end Step

/-- The outer loop appends the picked modes. -/
theorem foldlM_rightInverse (h : HasModes flat ms)
    (hr : Exact rstride ((ofLeaves (ms.map Prod.fst)).prefixes 1)) (xs : List ℕ)
    {shape stride : IntTuple} {es rs : List ℤ} {q : ℤ} (hshape : Exact shape (node (es.map leaf)))
    (hstride : Exact stride (node (rs.map leaf))) :
    ∃ shape' stride' q', xs.foldlM (fun r (_ : ℕ) => rightInverseStep flat rstride r)
        (shape, stride, q) = some (shape', stride', q') ∧
      Exact shape' (node ((es ++ (placeAt ms (picks ms xs.length q)).map Prod.fst).map leaf)) ∧
      Exact stride' (node ((rs ++ (placeAt ms (picks ms xs.length q)).map Prod.snd).map leaf)) := by
  induction xs generalizing shape stride es rs q with
  | nil => exact ⟨shape, stride, q, rfl, by simpa [picks, placeAt] using hshape,
      by simpa [picks, placeAt] using hstride⟩
  | cons x xs ih =>
    rw [length_cons, picks, foldlM_cons]
    cases hpick : ms.findIdx? fun m => m.2 == q with
    | none =>
      rw [rightInverseStep_none h hpick]
      exact ih hshape hstride
    | some j =>
      obtain ⟨shape₁, stride₁, hstep, hs₁, hd₁⟩ := rightInverseStep_some h hr hpick hshape hstride
      obtain ⟨shape', stride', q', hrun, hs', hd'⟩ := ih (q := q * (ms.getD j (1, 0)).1) hs₁ hd₁
      refine ⟨shape', stride', q', ?_, ?_, ?_⟩
      · rw [hstep]
        exact hrun
      · rw [append_assoc] at hs'
        exact hs'
      · rw [append_assoc] at hd'
        exact hd'

variable {l : Layout}

end Loops

/-! ### The inverse -/

section Inverse

variable {S D : IntArray} {n m : ℕ} {s d : Nest}

/-- A coalesced layout has no mode of extent one that could be picked. -/
theorem wide_coalesced (h : Positive ms) : Wide (coalesced ms) := by
  have hpos := positive_coalesced h
  rcases coalesced_extent h with hone | hone
  · rw [hone]
    intro m hm
    rw [mem_singleton.mp hm]
    exact ⟨one_pos, fun h0 => absurd h0 (by simp)⟩
  · intro m hm
    have h0 := hpos m hm
    have h1 := hone m hm
    exact ⟨h0, fun _ => by omega⟩

/-- The layout has the given modes as the elements of a tuple, even if there is only one. -/
def HasModeTuple (l : Layout) (ms : List Mode) : Prop :=
  (∃ k, Denotes l.shape.store k (node ((ms.map Prod.fst).map leaf))) ∧
    ∃ k, Denotes l.stride.store k (node ((ms.map Prod.snd).map leaf))

theorem leaves_tuple (vs : List ℤ) : (node (vs.map leaf)).leaves = vs := by
  simp [flatMap_map]

theorem modes_tuple (ms : List Mode) :
    modes (node ((ms.map Prod.fst).map leaf)) (node ((ms.map Prod.snd).map leaf)) = ms := by
  rw [modes, leaves_tuple, leaves_tuple, zip_fst_snd]

theorem congruent_tuple (ms : List Mode) : Nest.Congruent
    (node ((ms.map Prod.fst).map leaf)) (node ((ms.map Prod.snd).map leaf)) :=
  congruent_node.mpr (congruentAll_leaves (by simp))

theorem admissible_tuple (hpos : Positive ms) (hnn : ∀ m ∈ ms, 0 ≤ m.2) :
    Admissible (node ((ms.map Prod.fst).map leaf)) (node ((ms.map Prod.snd).map leaf)) :=
  .of_modes (congruent_tuple ms) (by rwa [modes_tuple]) (by rwa [modes_tuple])

theorem HasModeTuple.size_eq (h : HasModeTuple l ms)
    (hpos : Positive ms) (hnn : ∀ m ∈ ms, 0 ≤ m.2) : l.size = some (MixedRadix.size ms) := by
  have hsize := Shows.size_eq h (admissible_tuple hpos hnn)
  rwa [modes_tuple] at hsize

theorem HasModeTuple.call_eq (h : HasModeTuple l ms)
    (hpos : Positive ms) (hnn : ∀ m ∈ ms, 0 ≤ m.2) {i : ℤ} (h0 : 0 ≤ i)
    (hi : i < MixedRadix.size ms) : l.call (ofInt i) = some (eval ms i) := by
  have hmin := minimumValue_neg
  rw [← modes_tuple ms] at hi ⊢
  exact Shows.call_eq h (admissible_tuple hpos hnn)
    (exact_ofInt (show minimumValue ≤ i by omega)) h0 hi

/-- The modes of the result. -/
theorem exists_rightInverse (hs : Denotes S n s) (hd : Denotes D m d) (h : Admissible s d) :
    ∃ r : Layout, rightInverse ⟨⟨S⟩, ⟨D⟩⟩ = some r ∧
      HasModeTuple r (inverse (coalesced (modes s d))) := by
  obtain ⟨flat, hflat, hmodes⟩ := coalesce_flat hs hd h
  have hpos := (admissible_ofLeaves (positive_coalesced h.positive)
    (nonneg_coalesced h.modes_nonneg)).pos
  obtain ⟨k, hshape⟩ := hmodes.1
  obtain ⟨rstride, hr, hrd⟩ := prefixProduct_spec hshape hpos one_pos
  have hr' : prefixProduct flat.shape 1 = some rstride := hr
  have hempty : Exact IntTuple.empty (node (([] : List ℤ).map leaf)) := exact_empty
  obtain ⟨⟨x⟩, ⟨y⟩, q, hrun, hx, hy⟩ := foldlM_rightInverse (q := 1) hmodes hrd
    (range (coalesced (modes s d)).length) hempty hempty
  rw [length_range, nil_append] at hx hy
  obtain ⟨y', m', hres, hyd⟩ := resolveStride_congruent hx hy (congruent_tuple _)
  refine ⟨⟨⟨x⟩, ⟨y'⟩⟩, ?_, ⟨_, hx⟩, _, hyd⟩
  simp only [rightInverse, hflat, hr', hmodes.len_eq, hrun, init, ownedCopy_eq, hres, some_bind]
  rfl

end Inverse

end Layout
