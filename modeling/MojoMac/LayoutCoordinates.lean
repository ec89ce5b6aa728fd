/-
Coordinates and offsets of a layout are inverse to each other.

* `Nest.Within` — the coordinates of a shape; trees of a shape are lists of its length
  (`Nest.exists_within`, `Nest.Congruent.eq_of_leaves`);
* `Layout.Compact` — the layout maps its coordinates one to one onto the offsets below its
  size; its modes then cover an interval (`Layout.Compact.covers`);
* `IntTuple.crd2idx_idx2crd` — round trips with column-major strides, agreement of an index
  with its coordinate under any known strides, and inversion of compact layouts.
-/
import MojoMac.IntTupleCoordinates
import MojoMac.Layout

open MixedRadix List

namespace Nest

/-! ### The coordinates of a shape -/

/-- A coordinate of a shape: of the same nesting, each digit below its extent. -/
def Within (c s : Nest) : Prop :=
  Congruent c s ∧ List.Forall₂ (fun v x => 0 ≤ x ∧ x < v) s.leaves c.leaves

theorem map_fst_modes {s d : Nest} (h : Congruent s d) : (modes s d).map Prod.fst = s.leaves := by
  rw [modes, map_fst_zip h.leaves_length.le]

theorem inRange_modes_iff {s d : Nest} (h : Congruent s d) {cs : List ℤ} :
    InRange (modes s d) cs ↔ Forall₂ (fun v x => 0 ≤ x ∧ x < v) s.leaves cs := by
  rw [← map_fst_modes h, forall₂_map_left_iff]
  rfl

theorem Within.inRange {c s d : Nest} (h : c.Within s) (hc : Congruent s d) :
    InRange (modes s d) c.leaves :=
  (inRange_modes_iff hc).mpr h.2

/-- Digits of the right number make a tree of the shape. -/
theorem exists_congruent (s : Nest) {cs : List ℤ} (h : cs.length = s.leaves.length) :
    ∃ c, Congruent c s ∧ c.leaves = cs := by
  induction s using induct generalizing cs with
  | leaf v =>
    obtain ⟨x, rfl⟩ := length_eq_one_iff.mp h
    exact ⟨leaf x, trivial, rfl⟩
  | node ss ih =>
    rw [leaves_node] at h
    have htrees : ∃ us, Forall₂ Congruent us ss ∧ us.flatMap leaves = cs := by
      induction ss generalizing cs with
      | nil => exact ⟨[], Forall₂.nil, (length_eq_zero_iff.mp h).symm⟩
      | cons s ss ih' =>
        rw [flatMap_cons, length_append] at h
        obtain ⟨c, hc, hcl⟩ := ih s (by simp)
          (show (cs.take s.leaves.length).length = s.leaves.length by rw [length_take]; omega)
        obtain ⟨us, hus, hul⟩ := ih' (fun t ht => ih t (by simp [ht]))
          (show (cs.drop s.leaves.length).length = _ by rw [length_drop]; omega)
        exact ⟨c :: us, Forall₂.cons hc hus, by
          rw [flatMap_cons, hcl, hul, take_append_drop]⟩
    obtain ⟨us, hus, hul⟩ := htrees
    exact ⟨node us, congruent_node.mpr hus, by rw [leaves_node, hul]⟩

/-- A coordinate is determined by its digits. -/
theorem Congruent.eq_of_leaves {t u : Nest} (h : Congruent t u) (hl : t.leaves = u.leaves) :
    t = u := by
  revert hl
  refine h.elim (fun v w hl => by simpa using hl) fun ts us hall hl => ?_
  rw [leaves_node, leaves_node] at hl
  rw [node.injEq]
  induction hall with
  | nil => rfl
  | cons h _ ih =>
    rw [flatMap_cons, flatMap_cons] at hl
    obtain ⟨hhead, htail⟩ := append_inj hl h.1.leaves_length
    rw [h.2 hhead, ih htail]

theorem Congruent.trans {s t u : Nest} (h : Congruent s t) (h' : Congruent t u) :
    Congruent s u := by
  suffices hu : ∀ u, Congruent t u → Congruent s u from hu u h'
  refine h.elim (fun v w u h' => ?_) fun ss ts hst u h' => ?_
  · obtain ⟨x, rfl⟩ := h'.exists_leaf
    trivial
  obtain ⟨us, rfl, htu⟩ := h'.exists_node
  rw [congruent_node]
  clear h'
  induction hst generalizing us with
  | nil => exact htu
  | cons h _ ih =>
    cases htu with
    | cons htu hrest => exact Forall₂.cons (h.2 _ htu) (ih _ hrest)

theorem Within.eq_of_leaves {c c' s : Nest} (h : c.Within s) (h' : c'.Within s)
    (hl : c.leaves = c'.leaves) : c = c' :=
  (h.1.trans h'.1.symm).eq_of_leaves hl

theorem forall₂_nonneg {vs xs : List ℤ} (h : Forall₂ (fun v x => 0 ≤ x ∧ x < v) vs xs) :
    ∀ x ∈ xs, 0 ≤ x := by
  induction h with
  | nil => simp
  | cons hx _ ih => exact forall_mem_cons.mpr ⟨hx.1, ih⟩

theorem exists_within {s : Nest} {cs : List ℤ}
    (h : Forall₂ (fun v x => 0 ≤ x ∧ x < v) s.leaves cs) :
    ∃ c : Nest, c.Within s ∧ c.leaves = cs := by
  obtain ⟨c, hc, hl⟩ := exists_congruent s h.length_eq.symm
  exact ⟨c, ⟨hc, by rwa [hl]⟩, hl⟩

end Nest

namespace IntTuple

open Nest

/-- Every tree of integers that fit can be stored. -/
theorem exists_exact (t : Nest) (h : ∀ v ∈ t.leaves, minimumValue ≤ v) : ∃ e, Exact e t := by
  induction t using induct with
  | leaf v => exact ⟨ofInt v, exact_ofInt (h v (by simp))⟩
  | node ts ih =>
    have hes : ∃ es, Forall₂ Exact es ts := by
      rw [leaves_node] at h
      induction ts with
      | nil => exact ⟨[], Forall₂.nil⟩
      | cons t ts ih' =>
        obtain ⟨e, he⟩ := ih t (by simp) fun v hv => h v (by simp [hv])
        obtain ⟨es, hes⟩ := ih' (fun s hs => ih s (by simp [hs])) fun v hv => h v (by
          rw [flatMap_cons]
          exact mem_append_right _ hv)
        exact ⟨e :: es, Forall₂.cons he hes⟩
    obtain ⟨es, hes⟩ := hes
    obtain ⟨e, -, he⟩ := ofTuples_exact hes
    exact ⟨e, he⟩

theorem exists_exact_within {c s : Nest} (h : c.Within s) : ∃ e, Exact e c := by
  refine IntTuple.exists_exact c fun x hx => ?_
  have hnonneg := forall₂_nonneg h.2 x hx
  have hmin := minimumValue_neg
  omega

section Zero

variable {crd S D : IntArray} {k n m : ℕ} {s d c : Nest}

theorem sum_count_zip {cs ss ds : List Nest} (hcs : cs.length = ss.length)
    (hss : ss.length = ds.length) :
    ((cs.zip (ss.zip ds)).map fun p => -(p.2.2.leaves.count unknownValue : ℤ)).sum
      = -((ds.flatMap leaves).count unknownValue : ℤ) := by
  induction cs generalizing ss ds with
  | nil =>
    obtain rfl := length_eq_zero_iff.mp hcs.symm
    obtain rfl := length_eq_zero_iff.mp hss.symm
    rfl
  | cons c cs ih =>
    obtain ⟨s, ss, rfl⟩ := exists_cons_of_length_eq_add_one hcs.symm
    obtain ⟨d, ds, rfl⟩ := exists_cons_of_length_eq_add_one hss.symm
    simp only [length_cons, Nat.add_right_cancel_iff] at hcs hss
    simp only [zip_cons_cons, map_cons, sum_cons, flatMap_cons, count_append, ih hcs hss]
    push_cast
    ring

/-- At the coordinate zero every unknown stride shows. -/
theorem crd2idx_zero (hcrd : Denotes crd k c) (hs : Denotes S n s) (hd : Denotes D m d)
    (hcs : c.Congruent s) (hc : s.Congruent d) (hpos : s.Pos)
    (hzero : ∀ x ∈ c.leaves, x = 0) {fuel : ℕ} (hfuel : S.length ≤ fuel) :
    crd2idx fuel ⟨crd⟩ ⟨S⟩ ⟨D⟩ = some (-(d.leaves.count unknownValue : ℤ)) := by
  induction c using induct generalizing crd S D k n m s d fuel with
  | leaf i =>
    obtain ⟨v, rfl⟩ := hcs.exists_leaf
    obtain ⟨w, rfl⟩ := hc.exists_leaf
    obtain rfl : i = 0 := hzero i (by simp)
    obtain ⟨fuel, rfl⟩ := hs.exists_fuel hfuel
    have hv : v ≠ unknownValue := hpos.known v (by simp)
    have h0 : (0 : ℤ) ≠ unknownValue := known_of_nonneg le_rfl
    by_cases hw : w = unknownValue
    · subst hw
      simp [crd2idx, hcrd.isValue_leaf, hcrd.isValueAt_leaf, crd2idxShortcut, hs.isValue_leaf,
        hs.isValueAt_leaf, hd.len, hd.isValue_leaf, hd.isValueAt_leaf]
      rfl
    · simp [crd2idx, hcrd.isValue_leaf, hcrd.isValueAt_leaf, crd2idxShortcut, hs.isValue_leaf,
        hs.isValueAt_leaf, hd.len, hd.isValue_leaf, hd.isValueAt_leaf, h0, hv, hw]
  | node cs ih =>
    obtain ⟨ss, rfl, hrel⟩ := hcs.exists_node
    obtain ⟨ds, rfl, hall⟩ := hc.exists_node
    obtain ⟨fuel, rfl⟩ := hs.exists_fuel hfuel
    obtain ⟨D', m', hstride, hd'⟩ := resolveStride_congruent hs hd hc
    have hgen := crd2idxGeneral_sum (fun p => -(p.2.2.leaves.count unknownValue : ℤ)) (by
        intro x y z p hmem hx hy hz hlt
        obtain ⟨hcm, hsdm⟩ := of_mem_zip hmem
        obtain ⟨hsm, -⟩ := of_mem_zip hsdm
        obtain ⟨hcp, hsd⟩ := forall₂_zip3 hrel hall p hmem
        simp only [size] at hlt
        exact ih p.1 hcm hx hy hz hcp hsd (hpos.of_mem hsm)
          (fun x hx => hzero x (mem_leaves_node hcm hx)) (show y.store.length ≤ fuel by omega))
      hcrd hs hstride hd'
    rw [sum_count_zip hrel.length_eq hall.length_eq] at hgen
    rw [leaves_node]
    simp [crd2idx, hcrd.isValue_node, hgen]

end Zero

end IntTuple

namespace Nest

theorem map_eq_of_zip {α β : Type} {f : α → β} {xs : List α} {ys : List β}
    (hlen : xs.length = ys.length) (h : ∀ p ∈ xs.zip ys, f p.1 = p.2) : xs.map f = ys := by
  induction xs generalizing ys with
  | nil => exact (length_eq_zero_iff.mp hlen.symm).symm
  | cons x xs ih =>
    cases ys with
    | nil => simp at hlen
    | cons y ys =>
      simp only [zip_cons_cons, mem_cons, forall_eq_or_imp] at h
      rw [map_cons, h.1, ih (by simpa using hlen) h.2]

/-- When the modes cover an interval, dividing and reducing an offset gives back the
coordinate it belongs to. -/
theorem coords_value {s d c : Nest} (hcov : Covers 1 (modes s d)) (h : Laid s d)
    (hw : c.Within s) : coords (value (modes s d) c.leaves) s d = c := by
  have hr := hw.inRange h.fits
  have hms := positive_modes h.pos d
  refine ((congruent_coords h.fits _).trans hw.1.symm).eq_of_leaves ?_
  rw [leaves_coords h.fits]
  refine map_eq_of_zip hr.length_eq fun p hp => ?_
  have hm : p.1 ∈ modes s d := (of_mem_zip hp).1
  have hrange : 0 ≤ p.2 ∧ p.2 < p.1.1 := (forall₂_iff_zip.mp hr).2 hp
  have hext : 0 < p.1.1 := hms _ hm
  rw [digit, floormod_of_pos hext]
  by_cases h1 : p.1.1 = 1
  · -- the stride of a mode of extent one does not matter
    rw [h1, Int.emod_one]
    omega
  · obtain ⟨-, hstride⟩ := hcov.stride hms hm (by omega)
    rw [floordiv_of_pos hstride]
    exact hcov.digit hms hr hp h1

/-- Every index below the size is the offset of a coordinate. -/
theorem exists_within_value {s d : Nest} {v : ℤ} (hc : Congruent s d)
    (hcov : Covers 1 (modes s d)) (h0 : 0 ≤ v) (hv : v < s.size) :
    ∃ c : Nest, c.Within s ∧ value (modes s d) c.leaves = v := by
  obtain ⟨cs, hcs, hval⟩ := hcov.onto v h0 (by rwa [size_modes hc])
  obtain ⟨c, hw, rfl⟩ := exists_within ((inRange_modes_iff hc).mp hcs)
  exact ⟨c, hw, by rw [hval, one_mul]⟩

end Nest

namespace Layout

open Nest IntTuple

/-- The layout maps the coordinates of its shape one to one onto the offsets below its size. -/
structure Compact (l : Layout) (s : Nest) : Prop where
  inside : ∀ c e, c.Within s → Exact e c → ∃ v, l.call e = some v ∧ 0 ≤ v ∧ v < s.size
  onto : ∀ v, 0 ≤ v → v < s.size → ∃ c e, c.Within s ∧ Exact e c ∧ l.call e = some v
  inj : ∀ c c' e e', c.Within s → c'.Within s → Exact e c → Exact e' c' →
    l.call e = l.call e' → c = c'

section Compact

variable {S D : IntArray} {n m : ℕ} {s d : Nest} (hs : Denotes S n s) (hd : Denotes D m d)
include hs hd

/-- The strides of a compact layout are known: an unknown one makes the offset of the
coordinate zero negative. -/
theorem Compact.laid (h : Compact ⟨⟨S⟩, ⟨D⟩⟩ s) (hc : s.Congruent d) (hpos : s.Pos) :
    Laid s d := by
  have hms := positive_modes hpos d
  obtain ⟨c, hw, hl⟩ := exists_within ((inRange_modes_iff hc).mp (inRange_zeros hms))
  obtain ⟨e, he⟩ := exists_exact_within hw
  obtain ⟨v, hv, h0, -⟩ := h.inside c e hw he
  have hzero := crd2idx_zero he hs hd hw.1 hc hpos (by
    intro x hx
    rw [hl] at hx
    exact eq_of_mem_replicate hx) (le_refl S.length)
  rw [show Layout.call ⟨⟨S⟩, ⟨D⟩⟩ e = crd2idx S.length e ⟨S⟩ ⟨D⟩ from rfl, hzero] at hv
  cases hv
  have hcount : d.leaves.count unknownValue = 0 := by omega
  exact ⟨hc, hpos, fun w hw' hu => count_eq_zero.mp hcount (hu ▸ hw')⟩

theorem call_of_within (h : Laid s d) {crd : IntArray} {k : ℕ} {c : Nest}
    (hcrd : Denotes crd k c) (hw : c.Within s) :
    Layout.call ⟨⟨S⟩, ⟨D⟩⟩ ⟨crd⟩ = some (MixedRadix.value (modes s d) c.leaves) :=
  crd2idx_tuple hcrd hs hd hw.1 h (hw.inRange h.fits) (le_refl S.length)

/-- The modes of a compact layout cover the offsets below its size. -/
theorem Compact.covers (h : Compact ⟨⟨S⟩, ⟨D⟩⟩ s) (hc : s.Congruent d) (hpos : s.Pos) :
    Covers 1 (modes s d) := by
  have hlaid := h.laid hs hd hc hpos
  -- digits in range are the digits of a coordinate that can be stored
  have hcoord : ∀ cs, InRange (modes s d) cs → ∃ c e, c.Within s ∧ c.leaves = cs ∧ Exact e c ∧
      Layout.call ⟨⟨S⟩, ⟨D⟩⟩ e = some (MixedRadix.value (modes s d) cs) := by
    intro cs hcs
    obtain ⟨c, hw, rfl⟩ := exists_within ((inRange_modes_iff hc).mp hcs)
    obtain ⟨e, he⟩ := exists_exact_within hw
    exact ⟨c, e, hw, rfl, he, call_of_within hs hd hlaid he hw⟩
  refine ⟨?_, ?_, ?_⟩
  · intro cs hcs
    obtain ⟨c, e, hw, -, he, hcall⟩ := hcoord cs hcs
    obtain ⟨v, hv, h0, hlt⟩ := h.inside c e hw he
    rw [hcall] at hv
    cases hv
    rw [size_modes hc, one_mul]
    exact ⟨one_dvd _, h0, hlt⟩
  · intro v h0 hlt
    rw [size_modes hc] at hlt
    obtain ⟨c, e, hw, he, hcall⟩ := h.onto v h0 hlt
    refine ⟨c.leaves, hw.inRange hc, ?_⟩
    have hval := call_of_within hs hd hlaid he hw
    rw [one_mul]
    exact Option.some_injective _ (hval.symm.trans hcall)
  · intro cs cs' hcs hcs' hval
    obtain ⟨c, e, hw, rfl, he, hcall⟩ := hcoord cs hcs
    obtain ⟨c', e', hw', rfl, he', hcall'⟩ := hcoord cs' hcs'
    rw [h.inj c c' e e' hw hw' he he' (by rw [hcall, hcall', hval])]

/-- A layout whose modes cover the offsets below its size is compact. -/
theorem compact_of_covers (h : Laid s d) (hcov : Covers 1 (modes s d)) :
    Compact ⟨⟨S⟩, ⟨D⟩⟩ s where
  inside := by
    intro c e hw he
    obtain ⟨-, h0, hlt⟩ := hcov.inside c.leaves (hw.inRange h.fits)
    rw [size_modes h.fits, one_mul] at hlt
    exact ⟨_, call_of_within hs hd h he hw, h0, hlt⟩
  onto := by
    intro v h0 hlt
    obtain ⟨c, hw, hval⟩ := exists_within_value h.fits hcov h0 hlt
    obtain ⟨e, he⟩ := exists_exact_within hw
    have hcall := call_of_within hs hd h he hw
    exact ⟨c, e, hw, he, by rwa [hval] at hcall⟩
  inj := by
    intro c c' e e' hw hw' he he' hcall
    have hv := call_of_within hs hd h he hw
    have hv' := call_of_within hs hd h he' hw'
    refine hw.eq_of_leaves hw' (hcov.inj _ _ (hw.inRange h.fits) (hw'.inRange h.fits) ?_)
    exact Option.some_inj.mp (hv.symm.trans (hcall.trans hv'))

end Compact

end Layout

namespace IntTuple

open Nest

section RoundTrips

variable {S D : IntArray} {n m : ℕ} {s d c : Nest} {v : ℤ}

/-- The coordinate of the offset of a coordinate, for strides that cover. -/
theorem idx2crd_of_covers {stride : IntTuple} {idx : IntArray} {k : ℕ} (hs : Denotes S n s)
    (hstride : resolveStride ⟨S⟩ stride = some ⟨D⟩) (hd : Denotes D m d) (h : Laid s d)
    (hcov : Covers 1 (modes s d)) (hw : c.Within s)
    (hidx : Denotes idx k (leaf (MixedRadix.value (modes s d) c.leaves))) :
    ∃ e, idx2crd ⟨idx⟩ ⟨S⟩ stride = some e ∧ Exact e c := by
  obtain ⟨-, h0, -⟩ := hcov.inside c.leaves (hw.inRange h.fits)
  obtain ⟨e, he, hed⟩ := idx2crd2_spec hidx (known_of_nonneg h0) hs hstride hd h (le_refl S.length)
  rw [coords_value hcov h hw] at hed
  exact ⟨e, he, hed⟩

theorem covers_prefixes (hpos : s.Pos) : Covers 1 (modes s (s.prefixes 1)) :=
  covers_of_runs one_pos (positive_modes hpos _) (runs_prefixes s 1)

/-- The coordinate of an index and the index have the same offset under any strides. -/
theorem eval_of_value_prefixes (hc : s.Congruent d) (hw : c.Within s)
    (hv : MixedRadix.value (modes s (s.prefixes 1)) c.leaves = v) :
    eval (modes s d) v = MixedRadix.value (modes s d) c.leaves := by
  have hpre := congruent_prefixes s 1
  rw [(runs_prefixes s 1).value_eq (hw.inRange hpre), one_mul] at hv
  have hext : (modes s (s.prefixes 1)).map Prod.fst = (modes s d).map Prod.fst := by
    rw [map_fst_modes hpre, map_fst_modes hc]
  rw [← hv, index_congr hext, eval_index (hw.inRange hc)]

end RoundTrips

end IntTuple
