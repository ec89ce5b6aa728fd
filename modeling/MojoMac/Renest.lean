/-
Nesting a flat tuple like another one (`to_nest` in `layout/int_tuple.mojo`).

How many integers a sub-tuple gets is one more than its `depth`, which is the number of tuples
in it.  That is the number of its integers where all tuples have two elements, and not in
general.

* `Nest.renestAll` — the algorithm on trees;
* `Nest.renestAll_spec` — it succeeds exactly when each sub-tuple gets as many integers as it
  has, or more and no integer comes after it;
* `IntTuple.toNest_spec` — `to_nest` runs this algorithm.
-/
import MojoMac.IntTupleSort
import MojoMac.LayoutCoordinates

open List

namespace Nest

/-! ### Trees -/

mutual

/-- The number of tuples in a tree. -/
def tupleCount : Nest → ℕ
  | leaf _ => 0
  | node ts => 1 + tupleCountAll ts

def tupleCountAll : List Nest → ℕ
  | [] => 0
  | t :: ts => tupleCount t + tupleCountAll ts

end

mutual

/-- The tree with the integers in `vs` instead of its own, each element with the share that
`to_nest` computes. -/
def renest : Nest → List ℤ → Option Nest
  | leaf _, vs => vs.head?.map leaf
  | node ts, vs => (renestAll ts vs).map node

def renestAll : List Nest → List ℤ → Option (List Nest)
  | [], _ => some []
  | t :: ts, vs => do
    let u ← renest t (vs.take (tupleCount t + 1))
    let us ← renestAll ts (vs.drop (tupleCount t + 1))
    return u :: us

end

mutual

/-- Each element has at most as many integers as it gets, and exactly as many if integers come
after it. -/
def Renests : Nest → Prop
  | leaf _ => True
  | node ts => RenestsAll ts

def RenestsAll : List Nest → Prop
  | [] => True
  | t :: ts => Renests t ∧ t.leaves.length ≤ tupleCount t + 1 ∧
    (leavesAll ts = [] ∨ t.leaves.length = tupleCount t + 1) ∧ RenestsAll ts

end

mutual

def decidableRenests : (t : Nest) → Decidable (Renests t)
  | leaf _ => isTrue trivial
  | node ts => decidableRenestsAll ts

def decidableRenestsAll : (ts : List Nest) → Decidable (RenestsAll ts)
  | [] => isTrue trivial
  | t :: ts =>
    have := decidableRenests t
    have := decidableRenestsAll ts
    inferInstanceAs (Decidable (Renests t ∧ t.leaves.length ≤ tupleCount t + 1 ∧
      (leavesAll ts = [] ∨ t.leaves.length = tupleCount t + 1) ∧ RenestsAll ts))

end

instance (t : Nest) : Decidable (Renests t) := decidableRenests t

/-- Success takes as many integers as there are places. -/
theorem length_le_of_renest (t : Nest) : ∀ {u : Nest} {vs : List ℤ}, renest t vs = some u →
    t.leaves.length ≤ vs.length := by
  induction t using Nest.induct with
  | leaf v =>
    intro u vs h
    obtain ⟨w, hw, -⟩ := Option.map_eq_some_iff.mp h
    exact length_pos_of_ne_nil (ne_nil_of_mem (mem_of_mem_head? hw))
  | node ts ih =>
    intro u vs h
    obtain ⟨us, hus, -⟩ := Option.map_eq_some_iff.mp h
    change (leavesAll ts).length ≤ vs.length
    clear h
    induction ts generalizing us vs with
    | nil => simp [leavesAll]
    | cons t ts ihs =>
      simp only [renestAll, Option.bind_eq_bind, Option.bind_eq_some_iff] at hus
      obtain ⟨u', hu', us', hus', -⟩ := hus
      have h1 := ih t mem_cons_self hu'
      have h2 := ihs (fun s hs => ih s (mem_cons_of_mem _ hs)) us' hus'
      rw [length_take] at h1
      rw [length_drop] at h2
      rw [leavesAll, length_append]
      omega

/-- With the right number of integers, the parts have the right number when the shares fit. -/
theorem length_parts {t : Nest} {ts : List Nest} {vs : List ℤ}
    (hlen : vs.length = (leavesAll (t :: ts)).length) (hle : t.leaves.length ≤ tupleCount t + 1)
    (heq : leavesAll ts = [] ∨ t.leaves.length = tupleCount t + 1) :
    (vs.take (tupleCount t + 1)).length = t.leaves.length ∧
      (vs.drop (tupleCount t + 1)).length = (leavesAll ts).length := by
  rw [leavesAll, length_append] at hlen
  rw [length_take, length_drop]
  rcases heq with heq | heq
  · rw [heq, length_nil] at hlen ⊢
    omega
  · omega

/-- The shares fit when both parts succeed. -/
theorem shares_fit {t u : Nest} {ts us : List Nest} {vs : List ℤ}
    (hlen : vs.length = (leavesAll (t :: ts)).length)
    (hu : renest t (vs.take (tupleCount t + 1)) = some u)
    (hus : renestAll ts (vs.drop (tupleCount t + 1)) = some us) :
    t.leaves.length ≤ tupleCount t + 1 ∧ (leavesAll ts = [] ∨ t.leaves.length = tupleCount t + 1) := by
  have h1 := length_le_of_renest t hu
  have h2 := length_le_of_renest (node ts) (u := node us) (by rw [renest, hus]; rfl)
  change (leavesAll ts).length ≤ _ at h2
  rw [leavesAll, length_append] at hlen
  rw [length_take] at h1
  rw [length_drop] at h2
  refine ⟨by omega, ?_⟩
  by_cases h : leavesAll ts = []
  · exact Or.inl h
  · have := length_pos_of_ne_nil h
    exact Or.inr (by omega)

/-- **Success is a matter of the shares**, if the number of integers is right; and then the
integers are in their places. -/
theorem renest_spec (t : Nest) : ∀ {vs : List ℤ}, vs.length = t.leaves.length →
    ((∃ u, renest t vs = some u) ↔ Renests t) ∧
      ∀ u, renest t vs = some u → Congruent t u ∧ u.leaves = vs := by
  induction t using Nest.induct with
  | leaf v =>
    intro vs hlen
    obtain ⟨w, rfl⟩ := length_eq_one_iff.mp hlen
    refine ⟨iff_of_true ⟨leaf w, rfl⟩ trivial, ?_⟩
    intro u hu
    obtain rfl : leaf w = u := Option.some_inj.mp hu
    exact ⟨trivial, rfl⟩
  | node ts ih =>
    intro vs hlen
    have hall : ((∃ us, renestAll ts vs = some us) ↔ RenestsAll ts) ∧
        ∀ us, renestAll ts vs = some us → CongruentAll ts us ∧ leavesAll us = vs := by
      change vs.length = (leavesAll ts).length at hlen
      induction ts generalizing vs with
      | nil =>
        obtain rfl : vs = [] := length_eq_zero_iff.mp hlen
        refine ⟨iff_of_true ⟨[], rfl⟩ trivial, ?_⟩
        intro us hus
        obtain rfl : [] = us := Option.some_inj.mp hus
        exact ⟨trivial, rfl⟩
      | cons t ts ihs =>
        refine ⟨⟨?_, ?_⟩, ?_⟩
        · rintro ⟨us, hus⟩
          simp only [renestAll, Option.bind_eq_bind, Option.bind_eq_some_iff] at hus
          obtain ⟨u', hu', us', hus', -⟩ := hus
          obtain ⟨hle, heq⟩ := shares_fit hlen hu' hus'
          obtain ⟨hl1, hl2⟩ := length_parts hlen hle heq
          exact ⟨(ih t mem_cons_self hl1).1.mp ⟨u', hu'⟩, hle, heq,
            (ihs (fun s hs => ih s (mem_cons_of_mem _ hs)) hl2).1.mp ⟨us', hus'⟩⟩
        · rintro ⟨ht, hle, heq, hts⟩
          obtain ⟨hl1, hl2⟩ := length_parts hlen hle heq
          obtain ⟨u', hu'⟩ := (ih t mem_cons_self hl1).1.mpr ht
          obtain ⟨us', hus'⟩ := (ihs (fun s hs => ih s (mem_cons_of_mem _ hs)) hl2).1.mpr hts
          exact ⟨u' :: us', by simp [renestAll, hu', hus']⟩
        · intro us hus
          simp only [renestAll, Option.bind_eq_bind, Option.bind_eq_some_iff] at hus
          obtain ⟨u', hu', us', hus', h⟩ := hus
          obtain rfl : u' :: us' = us := Option.some_inj.mp h
          obtain ⟨hle, heq⟩ := shares_fit hlen hu' hus'
          obtain ⟨hl1, hl2⟩ := length_parts hlen hle heq
          obtain ⟨hc1, hv1⟩ := (ih t mem_cons_self hl1).2 u' hu'
          obtain ⟨hc2, hv2⟩ := (ihs (fun s hs => ih s (mem_cons_of_mem _ hs)) hl2).2 us' hus'
          refine ⟨⟨hc1, hc2⟩, ?_⟩
          rw [leavesAll, hv1, hv2, take_append_drop]
    refine ⟨?_, ?_⟩
    · simp only [renest, Option.map_eq_some_iff, Renests, ← hall.1]
      constructor
      · rintro ⟨_, us, hus, _⟩
        exact ⟨us, hus⟩
      · rintro ⟨us, hus⟩
        exact ⟨node us, us, hus, rfl⟩
    · intro u hu
      obtain ⟨us, hus, rfl⟩ := Option.map_eq_some_iff.mp hu
      exact hall.2 us hus

end Nest

/-- Computations that are related step by step. -/
theorem Option.Rel.bind {α β γ δ : Type} {r : α → β → Prop} {q : γ → δ → Prop} {x : Option α}
    {y : Option β} (h : Option.Rel r x y) {f : α → Option γ} {g : β → Option δ}
    (hfg : ∀ a b, r a b → Option.Rel q (f a) (g b)) : Option.Rel q (x.bind f) (y.bind g) := by
  cases h with
  | none => exact Option.Rel.none
  | some h => exact hfg _ _ h

theorem Option.Rel.of_left {α β : Type} {r : α → β → Prop} {x : Option α} {y : Option β}
    (h : Option.Rel r x y) {a : α} (hx : x = Option.some a) : ∃ b, y = Option.some b ∧ r a b := by
  subst hx
  cases h with
  | some h => exact ⟨_, rfl, h⟩

theorem Option.Rel.of_right {α β : Type} {r : α → β → Prop} {x : Option α} {y : Option β}
    (h : Option.Rel r x y) {b : β} (hy : y = Option.some b) : ∃ a, x = Option.some a ∧ r a b := by
  subst hy
  cases h with
  | some h => exact ⟨_, rfl, h⟩

namespace Slice

theorem positions_between (i k length : ℕ) : positions ⟨some i, some (i + k : ℕ), none⟩ length
      = List.range' (min i length) (min (i + k) length - min i length) := by
  have hclamp : ∀ j : ℕ, clamp length true j = (min j length : ℕ) := by
    intro j
    simp only [clamp, if_true]
    split_ifs <;> omega
  have hrange := range_one (show min (i + k) length - min i length
    ≤ (((min (i + k) length : ℕ) : ℤ) - (min i length : ℕ)).natAbs by omega) (min i length)
  rw [show ((min i length : ℕ) : ℤ) + (min (i + k) length - min i length : ℕ)
    = (min (i + k) length : ℕ) by omega] at hrange
  simp only [positions, indices, Option.getD_none, one_pos, decide_true, hclamp, hrange, map_map]
  exact map_id _

end Slice

namespace IntTuple

open Nest

section Nesting

variable {F S : IntArray} {k n : ℕ} {f t : Nest} {vs : List ℤ}

/-- A part of a flat tuple; where it ends before, there is less. -/
theorem slice_between (hF : Denotes F k f) (hvs : f.children = vs.map leaf) (i m : ℕ) :
    ∃ r, (IntTuple.mk F).slice ⟨some i, some (i + m : ℕ), none⟩ = some r ∧
      Exact r (node (((vs.drop i).take m).map leaf)) := by
  obtain ⟨r, hr, hd⟩ := slice_spec hF ⟨some i, some (i + m : ℕ), none⟩
  refine ⟨r, hr, ?_⟩
  rw [Slice.positions_between, select, filterMap_range', hvs, length_map] at hd
  rw [map_take, map_drop]
  by_cases hi : i ≤ vs.length
  · rw [min_eq_left hi] at hd
    by_cases him : i + m ≤ vs.length
    · rwa [min_eq_left him, Nat.add_sub_cancel_left] at hd
    · rw [min_eq_right (by omega), take_of_length_le (by simp)] at hd
      rwa [take_of_length_le (by simp; omega)]
  · rw [min_eq_right (not_le.mp hi).le, drop_eq_nil_of_le (by rw [length_map]), take_nil] at hd
    rwa [drop_eq_nil_of_le (by rw [length_map]; omega), take_nil]

theorem depth_spec (h : Denotes S n t) {fuel : ℕ} (hfuel : S.length ≤ fuel) :
    depth fuel ⟨S⟩ = some t.tupleCount := by
  induction t using Nest.induct generalizing S n fuel with
  | leaf v =>
    obtain ⟨fuel, rfl⟩ := h.exists_fuel hfuel
    simp [depth, h.isValue_leaf.1, tupleCount]
  | node ts ih =>
    obtain ⟨fuel, rfl⟩ := h.exists_fuel hfuel
    obtain ⟨es, hes, hall⟩ := h.elems
    have hfold : ∀ m, es.foldlM (fun res elem => do return res + (← depth fuel elem)) m
        = some (m + tupleCountAll ts) := by
      clear h hes
      induction hall with
      | nil => intro m; rfl
      | @cons e t es ts he _ ihs =>
        intro m
        have hd := ih t mem_cons_self he.1
          (show e.store.length ≤ fuel by have := he.2; simp only [size] at this; omega)
        have hrest := ihs (fun s hs => ih s (mem_cons_of_mem _ hs)) (m + t.tupleCount)
        simp only [Option.bind_eq_bind] at hrest
        simp only [foldlM_cons, hd, some_bind, Option.pure_def, tupleCountAll, ← add_assoc]
        exact hrest
    simp only [depth, h.isValue_node, hes, some_bind, Bool.false_eq_true, if_false, tupleCount]
    exact hfold 1

/-- One turn: the element is nested like `t`, from its share of the integers. -/
theorem toNestStep_spec {rec : IntTuple → IntTuple → Option IntTuple} {r x : IntTuple}
    {us : List Nest} {i : ℕ} (idx : ℕ) (hF : Denotes F k f) (hvs : f.children = vs.map leaf)
    (hx : (IntTuple.mk S).get i = some x) (ht : Exact x t) (hr : Exact r (node us))
    (hrec : ∀ ts, t = node ts → ∀ y ws, Exact y (node (ws.map leaf)) →
      Option.Rel Exact (rec x y) ((renestAll ts ws).map node)) :
    Option.Rel (fun r' u => Exact r'.1 (node (us ++ [u])) ∧ r'.2 = idx + (tupleCount t + 1))
      (toNestStep rec ⟨S⟩ ⟨F⟩ (r, idx) i) (renest t ((vs.drop idx).take (tupleCount t + 1))) := by
  cases t with
  | leaf v =>
    have hval : x.isValue = some true := (Denotes.isValue_leaf ht).1
    by_cases hidx : idx < vs.length
    · obtain ⟨y, hy, hyd⟩ := hF.getitem (i := idx) (s := leaf vs[idx]) (by rw [hvs]; simp [hidx])
      obtain ⟨r', hr', hd'⟩ := append_exact hr hyd
      have hhead : ((vs.drop idx).take (tupleCount (leaf v) + 1)).head? = some vs[idx] := by
        rw [drop_eq_getElem_cons hidx, take_succ_cons, head?_cons]
      simp only [toNestStep, hx, hval, hy, hr', some_bind, if_true, renest, hhead, Option.map_some]
      exact Option.Rel.some ⟨hd', rfl⟩
    · have hnone : (IntTuple.mk F).get idx = none := by
        have hlen : (IntTuple.mk F).len = some vs.length := by rw [hF.len, hvs, length_map]
        simp [IntTuple.get, hlen, hidx]
      have hhead : ((vs.drop idx).take (tupleCount (leaf v) + 1)).head? = none := by
        rw [drop_eq_nil_of_le (not_lt.mp hidx), take_nil, head?_nil]
      simp only [toNestStep, hx, hval, hnone, some_bind, if_true, renest, hhead, Option.map_none]
      exact Option.Rel.none
  | node ts =>
    have hval : x.isValue = some false := Denotes.isValue_node ht
    have hdepth : depth x.size x = some (tupleCount (node ts)) := depth_spec ht le_rfl
    obtain ⟨y, hy, hyd⟩ := slice_between hF hvs idx (tupleCount (node ts) + 1)
    have hsub := hrec ts rfl y _ hyd
    simp only [toNestStep, hx, hval, hdepth, hy, some_bind, Bool.false_eq_true, if_false, renest]
    rw [← Option.bind_fun_some (Option.map node _)]
    refine hsub.bind fun z u hz => ?_
    obtain ⟨r', hr', hd'⟩ := append_exact hr hz
    simp only [hr']
    exact Option.Rel.some ⟨hd', rfl⟩

/-- The whole loop, from the element after `pre` on. -/
theorem foldlM_toNest {rec : IntTuple → IntTuple → Option IntTuple} (hF : Denotes F k f)
    (hvs : f.children = vs.map leaf) (pre ts : List Nest)
    (hget : ∀ (i : ℕ) (t : Nest), (pre ++ ts)[i]? = some t →
      ∃ x, (IntTuple.mk S).get i = some x ∧ Exact x t ∧
        ∀ ts, t = node ts → ∀ y ws, Exact y (node (ws.map leaf)) →
          Option.Rel Exact (rec x y) ((renestAll ts ws).map node))
    {r : IntTuple} {us : List Nest} (idx : ℕ) (hr : Exact r (node us)) :
    Option.Rel (fun r' us' => Exact r'.1 (node (us ++ us')))
      ((List.range' pre.length ts.length).foldlM (toNestStep rec ⟨S⟩ ⟨F⟩) (r, idx))
      (renestAll ts (vs.drop idx)) := by
  induction ts generalizing pre r us idx with
  | nil => exact Option.Rel.some (by rwa [append_nil])
  | cons t ts ih =>
    obtain ⟨x, hx, hxd, hrec⟩ := hget pre.length t (by simp)
    have hstep := toNestStep_spec idx hF hvs hx hxd hr hrec
    rw [length_cons, range'_succ, foldlM_cons, renestAll]
    refine hstep.bind ?_
    rintro ⟨r', idx'⟩ u ⟨hd, rfl⟩
    have hrest := ih (pre ++ [t]) (by simpa using hget) (idx + (tupleCount t + 1)) hd
    rw [length_append, length_singleton, ← drop_drop] at hrest
    rw [← Option.bind_fun_some (foldlM (toNestStep rec ⟨S⟩ ⟨F⟩) _ _)]
    refine hrest.bind fun r'' us' h => Option.Rel.some ?_
    rwa [append_assoc, singleton_append] at h

/-- **`to_nest` is `renestAll`** on the elements of the shape. -/
theorem toNest_spec {fuel : ℕ} (hS : Denotes S n t) (hfuel : S.length ≤ fuel)
    (hF : Denotes F k f) (hvs : f.children = vs.map leaf) :
    Option.Rel Exact (toNest fuel ⟨S⟩ ⟨F⟩) ((renestAll t.children vs).map node) := by
  induction fuel generalizing S n t F k f vs with
  | zero => exact absurd hS.length_pos (by omega)
  | succ fuel ih =>
    have hget : ∀ (i : ℕ) (s : Nest), t.children[i]? = some s →
        ∃ x, (IntTuple.mk S).get i = some x ∧ Exact x s ∧
          ∀ ts, s = node ts → ∀ y ws, Exact y (node (ws.map leaf)) →
            Option.Rel Exact (toNest fuel x y) ((renestAll ts ws).map node) := by
      intro i s hs
      rcases hS.child hs with ⟨v, rfl, -⟩ | ⟨x, -, hx, hxd, hlt⟩
      · obtain ⟨x, hx, hxd⟩ := hS.getitem hs
        refine ⟨x, hx, hxd, ?_⟩
        intro ts hts
        cases hts
      · refine ⟨x, hx, hxd, ?_⟩
        rintro ts rfl y ws hy
        exact ih hxd (show x.store.length ≤ fuel by simp only [size] at hlt; omega) hy rfl
    have hloop := foldlM_toNest hF hvs [] t.children hget 0 exact_empty
    rw [length_nil, ← range_eq_range', drop_zero] at hloop
    simp only [toNest, hS.len, some_bind]
    rw [Option.map_eq_bind]
    exact hloop.bind fun r us h => Option.Rel.some h

end Nesting

end IntTuple
