/-
Coalescing each mode of a layout (`keep_rank`).

The coalesced modes are appended to new tuples, word by word.  Their strides are stored
without gaps, but a shape may have words that nothing refers to, and taking it out again then
cuts it short.

* `Layout.coalesce_keepRank` — the stores of the result;
* `Layout.call_keepRank` — its offsets, when all shapes fit;
* `Layout.call_keepRank_none` — otherwise no coordinate at all can be evaluated;
* `Layout.coalesce_spec` — what `coalesce` does, with and without `keep_rank`.
-/
import MojoMac.LayoutCoalesce

open MixedRadix List

/-! ### Sub-layouts -/

namespace Nest

variable {s d : Nest}

theorem congruent_children (h : Congruent s d) : Forall₂ Congruent s.children d.children := by
  cases s with
  | leaf v =>
    obtain ⟨w, rfl⟩ := h.exists_leaf
    exact Forall₂.cons trivial Forall₂.nil
  | node ss =>
    obtain ⟨ds, rfl, hall⟩ := h.exists_node
    exact hall

theorem Admissible.child (h : Admissible s d) {p : Nest × Nest}
    (hp : p ∈ s.children.zip d.children) : Admissible p.1 p.2 where
  congruent := (forall₂_iff_zip.mp (congruent_children h.congruent)).2 hp
  pos v hv := h.pos v (by
    rw [← leaves_children]
    exact mem_flatMap.mpr ⟨_, (of_mem_zip hp).1, hv⟩)
  nonneg w hw := h.nonneg w (by
    rw [← leaves_children]
    exact mem_flatMap.mpr ⟨_, (of_mem_zip hp).2, hw⟩)

end Nest

namespace Layout

open Nest IntTuple

section Modes

variable {S D : IntArray} {n m : ℕ} {s d : Nest}

theorem getitem_spec (hs : Denotes S n s) (hd : Denotes D m d) (hc : s.Congruent d) {k : ℕ}
    {p : Nest × Nest} (hp : (s.children.zip d.children)[k]? = some p) :
    ∃ l, getitem ⟨⟨S⟩, ⟨D⟩⟩ k = some l ∧ l.Shows p.1 p.2 := by
  obtain ⟨hp1, hp2⟩ := getElem?_zip_eq_some.mp hp
  obtain ⟨x, hx, hxd⟩ := hs.getitem hp1
  obtain ⟨y, hy, hyd⟩ := hd.getitem hp2
  have hsd : Nest.Congruent p.1 p.2 :=
    (forall₂_iff_zip.mp (congruent_children hc)).2 (mem_of_getElem? hp)
  obtain ⟨y', m', hres, hyd'⟩ := resolveStride_congruent hxd hyd hsd
  refine ⟨⟨x, ⟨y'⟩⟩, ?_, ⟨_, hxd⟩, _, hyd'⟩
  have hres' : resolveStride x y = some ⟨y'⟩ := hres
  simp [getitem, hx, hy, init, ownedCopy_eq, hres']

theorem iter_spec (hs : Denotes S n s) (hd : Denotes D m d) (hc : s.Congruent d) :
    ∃ ls, iter ⟨⟨S⟩, ⟨D⟩⟩ = some ls ∧
      Forall₂ (fun l p => l.Shows p.1 p.2) ls (s.children.zip d.children) := by
  obtain ⟨ls, hls, hall⟩ := exists_mapM_range
    fun k p hp => getitem_spec hs hd hc (k := k) (p := p) hp
  refine ⟨ls, ?_, hall⟩
  have hlen := (congruent_children hc).length_eq
  rw [length_zip, hlen, min_self, ← hlen] at hls
  have hl : Layout.len ⟨⟨S⟩, ⟨D⟩⟩ = some s.children.length := hs.len
  simp [iter, hl, hls]

end Modes

/-! ### The stores of the result -/

/-- The coalesced shape of a mode. -/
def runShape (p : Nest × Nest) : IntTuple :=
  ⟨shapeStore (runs (modes p.1 p.2))⟩

/-- The coalesced strides of a mode. -/
def runStrides (p : Nest × Nest) : Nest :=
  ofLeaves ((coalesced (modes p.1 p.2)).map Prod.snd)

section KeepRank

variable {S D : IntArray} {n m : ℕ} {ss ds : List Nest}

/-- The loop appends the coalesced modes. -/
theorem coalesce_eq_init {s d : Nest} (hs : Denotes S n s) (hd : Denotes D m d)
    (h : Admissible s d) (hrank : s.children.length ≠ 1) : ∃ strides, coalesce ⟨⟨S⟩, ⟨D⟩⟩ true
        = init ⟨built ((s.children.zip d.children).map runShape)⟩ strides ∧
      Exact strides (node ((s.children.zip d.children).map runStrides)) := by
  obtain ⟨ls, hiter, hall⟩ := iter_spec hs hd h.congruent
  have hl : Layout.len ⟨⟨S⟩, ⟨D⟩⟩ = some s.children.length := hs.len
  simp only [coalesce, hl, hiter, if_true, some_bind, if_neg hrank]
  refine (exists_foldlM_snoc (s := (IntTuple.empty, IntTuple.empty))
    (fun r qs => r.1 = ⟨built (qs.map runShape)⟩ ∧ Exact r.2 (node (qs.map runStrides)))
    hall ?_ ⟨rfl, exact_empty⟩).elim
    fun r hr => ⟨r.2, (congrArg (· >>= fun r => init r.1 r.2) hr.1).trans ?_, hr.2.2⟩
  · rintro ⟨shapes, strides⟩ qs ⟨⟨x⟩, ⟨y⟩⟩ p hp ⟨⟨n, hx⟩, m, hy⟩ ⟨rfl, hstrides⟩
    obtain ⟨rd, hflat, hrd⟩ := coalesceFlat_spec hx hy (h.child hp)
    obtain ⟨strides', happ, hexact⟩ := append_exact hstrides hrd
    have happ' : strides.append [rd] = some strides' := happ
    refine ⟨(⟨built (qs.map runShape ++ [runShape p])⟩, strides'), ?_, ?_, ?_⟩
    · simp [hflat, happ', append_built, runShape]
    · simp
    · simpa [runStrides] using hexact
  · rw [some_bind, hr.2.1]

/-- With `keep_rank` the coalesced modes are the elements of the result. -/
theorem coalesce_keepRank {s d : Nest} (hs : Denotes S n s) (hd : Denotes D m d)
    (h : Admissible s d) (hrank : s.children.length ≠ 1) : ∃ strides, coalesce ⟨⟨S⟩, ⟨D⟩⟩ true
        = some ⟨⟨built ((s.children.zip d.children).map runShape)⟩, strides⟩ ∧
      Exact strides (node ((s.children.zip d.children).map runStrides)) := by
  obtain ⟨strides, hrun, hexact⟩ := coalesce_eq_init hs hd h hrank
  have hlen : strides.len = some (s.children.zip d.children).length := by simpa using hexact.len
  rw [hrun]
  by_cases hnil : s.children.zip d.children = []
  · rw [hnil]
    refine ⟨IntTuple.empty, ?_, exact_empty⟩
    rw [hnil] at hlen
    have hempty : (IntTuple.mk (built [])).len = some 0 := rfl
    simp [init, ownedCopy_eq, resolveStride, hlen, prefixProduct, hempty]
  · refine ⟨strides, init_of_len hlen ?_, hexact⟩
    rwa [ne_eq, length_eq_zero_iff]

/-! ### Top-level coordinates -/

/-- The offset of a tuple of indices, one for each mode. -/
theorem call_top {crd : IntArray} {k : ℕ} {js : List ℤ} (hs : Denotes S n (node ss))
    (hd : Denotes D m (node ds)) (h : Admissible (node ss) (node ds))
    (hcrd : Denotes crd k (node (js.map leaf)))
    (hr : Forall₂ (fun i s => 0 ≤ i ∧ i < s.size) js ss) : call ⟨⟨S⟩, ⟨D⟩⟩ ⟨crd⟩
      = some ((js.zip (ss.zip ds)).map fun p => eval (modes p.2.1 p.2.2) p.1).sum := by
  obtain ⟨fuel, hfuel⟩ := hs.exists_fuel le_rfl
  obtain ⟨D', m', hstride, hd'⟩ := resolveStride_congruent hs hd h.congruent
  have hzip : (js.map leaf).zip (ss.zip ds)
      = (js.zip (ss.zip ds)).map fun p => (leaf p.1, p.2) := by
    rw [zip_map_left]
    rfl
  have hgen : crd2idxGeneral (crd2idx fuel) ⟨crd⟩ ⟨S⟩ ⟨D⟩ = _ :=
    crd2idxGeneral_sum (fun p => eval (modes p.2.1 p.2.2) (p.1.leaves.headD 0)) (by
      intro x y z p hmem hx hy hz hlt
      rw [hzip] at hmem
      obtain ⟨q, hq, rfl⟩ := mem_map.mp hmem
      obtain ⟨hrange, -⟩ := forall₂_zip3 hr (congruent_node.mp h.congruent) q hq
      simp only [IntTuple.size] at hlt
      exact crd2idx_int hx hrange.1 hrange.2 hy hz (h.laid.of_zip (of_mem_zip hq).2)
        (show y.store.length ≤ fuel by omega)) hcrd hs hstride hd'
  rw [hzip, map_map] at hgen
  rw [call]
  simp only [IntTuple.size, hfuel, crd2idx, hcrd.isValue_node, some_bind, Bool.false_eq_true,
    if_false, hgen]
  rfl

end KeepRank

/-! ### Shapes that fit -/

section Fit

variable {ps : List (Nest × Nest)} {strides : IntTuple} {js : List ℤ} {crd : IntArray} {k : ℕ}

/-- The coalesced extents of a mode. -/
def runExtents (p : Nest × Nest) : Nest :=
  ofLeaves ((coalesced (modes p.1 p.2)).map Prod.fst)

/-- The words of the coalesced shape that are referred to. -/
def runWords (p : Nest × Nest) : ℕ :=
  words (shapeEntries (runs (modes p.1 p.2)))

theorem denotes_built {qs : List (IntTuple × ℕ)} {ts : List Nest}
    (h : Forall₂ Item.Denotes (tuples qs) ts) :
    ∃ n, Denotes (built (qs.map Prod.fst)) n (node ts) := by
  obtain ⟨a, ha, hd, -⟩ := ofTuples_spec h
  rw [ofTuples_eq_built] at ha
  cases ha
  exact ⟨_, hd⟩

theorem denotes_runShapes (h : ∀ p ∈ ps, Admissible p.1 p.2)
    (hfit : ∀ p ∈ ps, Fits (runs (modes p.1 p.2))) :
    ∃ n, Denotes (built (ps.map runShape)) n (node (ps.map runExtents)) := by
  have hitems : Forall₂ Item.Denotes (tuples (ps.map fun p => (runShape p, runWords p)))
      (ps.map runExtents) := by
    rw [tuples, map_map, forall₂_map_left_iff, forall₂_map_right_iff, forall₂_same]
    intro p hp
    exact nestable_shapeStore (fun g hg => (h p hp).positive.of_run hg)
      (fun g hg => runs_ne_nil hg) (hfit p hp)
  have hbuilt := denotes_built hitems
  rwa [map_map] at hbuilt

theorem modes_runs (p : Nest × Nest) :
    modes (runExtents p) (runStrides p) = coalesced (modes p.1 p.2) :=
  modes_ofLeaves _

theorem admissible_runs {p : Nest × Nest} (h : Admissible p.1 p.2) :
    Admissible (runExtents p) (runStrides p) :=
  admissible_ofLeaves (positive_coalesced h.positive) (nonneg_coalesced h.modes_nonneg)

theorem admissible_node (h : ∀ p ∈ ps, Admissible p.1 p.2) :
    Admissible (node (ps.map runExtents)) (node (ps.map runStrides)) := by
  refine ⟨?_, fun v hv => ?_, fun w hw => ?_⟩
  · rw [congruent_node, forall₂_map_left_iff, forall₂_map_right_iff, forall₂_same]
    exact fun p hp => (admissible_runs (h p hp)).congruent
  · rw [leaves_node, flatMap_map] at hv
    obtain ⟨p, hp, hv⟩ := mem_flatMap.mp hv
    exact (admissible_runs (h p hp)).pos v hv
  · rw [leaves_node, flatMap_map] at hw
    obtain ⟨p, hp, hw⟩ := mem_flatMap.mp hw
    exact (admissible_runs (h p hp)).nonneg w hw

/-- When all shapes fit, the offset of a coordinate is the sum over the modes. -/
theorem call_keepRank (h : ∀ p ∈ ps, Admissible p.1 p.2)
    (hfit : ∀ p ∈ ps, Fits (runs (modes p.1 p.2)))
    (hstrides : Exact strides (node (ps.map runStrides)))
    (hcrd : Denotes crd k (node (js.map leaf)))
    (hr : Forall₂ (fun i p => 0 ≤ i ∧ i < p.1.size) js ps) :
    call ⟨⟨built (ps.map runShape)⟩, strides⟩ ⟨crd⟩
      = some ((js.zip ps).map fun q => eval (modes q.2.1 q.2.2) q.1).sum := by
  obtain ⟨n, hshape⟩ := denotes_runShapes h hfit
  have hsize : ∀ p ∈ ps, (runExtents p).size = p.1.size := by
    intro p hp
    rw [← size_modes (admissible_runs (h p hp)).congruent, modes_runs, size_coalesced,
      size_modes (h p hp).congruent]
  have hr' : Forall₂ (fun i s => 0 ≤ i ∧ i < s.size) js (ps.map runExtents) := by
    rw [forall₂_map_right_iff]
    refine forall₂_iff_zip.mpr ⟨hr.length_eq, fun {i p} hip => ?_⟩
    rw [hsize p (of_mem_zip hip).2]
    exact (forall₂_iff_zip.mp hr).2 hip
  have hcall := call_top hshape hstrides (admissible_node h) hcrd hr'
  have hsum : ((js.zip ((ps.map runExtents).zip (ps.map runStrides))).map
      fun q => eval (modes q.2.1 q.2.2) q.1) = (js.zip ps).map fun q => eval (modes q.2.1 q.2.2) q.1 := by
    rw [zip_map', zip_map_right, map_map]
    refine map_congr_left fun q hq => ?_
    change eval (modes (runExtents q.2) (runStrides q.2)) q.1 = _
    rw [modes_runs]
    exact eval_coalesced (h q.2 (of_mem_zip hq).2).positive q.1
  rw [hsum] at hcall
  exact hcall

/-! ### Shapes that do not fit -/

theorem foldlM_eq_none {α σ : Type} {f : σ → α → Option σ} {xs : List α} {x : α} (hx : x ∈ xs)
    (h : ∀ s, f s x = none) (s : σ) : xs.foldlM f s = none := by
  induction xs generalizing s with
  | nil => exact absurd hx not_mem_nil
  | cons y xs ih =>
    rw [foldlM_cons]
    rcases mem_cons.mp hx with rfl | hx
    · rw [h]
      rfl
    · cases f s y with
      | none => rfl
      | some s' => exact ih hx s'

theorem isValue_of_len {t : IntTuple} {r : ℕ} (hlen : t.len = some r) (hr : r ≠ 1) :
    t.isValue = some false := by
  simp [isValue, hlen, hr]

/-- A shape of three or more elements, one of which cannot be read. -/
theorem crd2idx_eq_none {shape stride : IntTuple} {r r' j fuel : ℕ} {i : ℤ}
    (hcrd : Denotes crd k (leaf i)) (hlen : shape.len = some r) (hr : 3 ≤ r)
    (hlen' : stride.len = some r') (hr' : r' ≠ 0) (hj : j < r) (hget : shape.get j = none) :
    crd2idx fuel ⟨crd⟩ shape stride = none := by
  cases fuel with
  | zero => rfl
  | succ fuel =>
    have hval : shape.isValue = some false := isValue_of_len hlen (by omega)
    have hshort : crd2idxShortcut (crd2idx fuel) i shape stride = some none := by
      simp [crd2idxShortcut, hval, hlen, hlen', show r ≠ 2 by omega]
    have hgen : crd2idxGeneral (crd2idx fuel) ⟨crd⟩ shape stride = none := by
      simp only [crd2idxGeneral, resolveStride, hlen', hr', if_false, ownedCopy_eq,
        hcrd.isValue_leaf, hcrd.toInt, hval, hlen, some_bind, if_true, Bool.false_eq_true,
        show r ≠ 0 by omega]
      by_cases hlast : j = r - 1
      · -- the last element is read behind the loop
        rw [hlast] at hget
        refine Option.bind_eq_none_iff.mpr fun p _ => ?_
        simp [hget]
      · rw [foldlM_eq_none (mem_range.mpr (show j < r - 1 by omega)) (by intro p; simp [hget])]
        rfl
    simp [crd2idx, hcrd.isValue_leaf, hcrd.isValueAt_leaf, hshort, hgen]

theorem exists_of_forall₂ {α β : Type} {r : α → β → Prop} {xs : List α} {ys : List β}
    (h : Forall₂ r xs ys) {y : β} (hy : y ∈ ys) : ∃ x ∈ xs, r x y := by
  induction h with
  | nil => exact absurd hy not_mem_nil
  | @cons x' y' xs ys hr _ ih =>
    rcases mem_cons.mp hy with rfl | hy
    · exact ⟨x', by simp, hr⟩
    · obtain ⟨x, hx, hxr⟩ := ih hy
      exact ⟨x, by simp [hx], hxr⟩

/-- When some shape does not fit, no coordinate can be evaluated. -/
theorem call_keepRank_none (h : ∀ p ∈ ps, Admissible p.1 p.2) (hrank : ps.length ≠ 1)
    (hfit : ¬ ∀ p ∈ ps, Fits (runs (modes p.1 p.2)))
    (hstrides : Exact strides (node (ps.map runStrides)))
    (hcrd : Denotes crd k (node (js.map leaf))) (hlen : js.length = ps.length) :
    call ⟨⟨built (ps.map runShape)⟩, strides⟩ ⟨crd⟩ = none := by
  simp only [not_forall] at hfit
  obtain ⟨p, hp, hfit⟩ := hfit
  have hgood : ∀ p ∈ ps, ∀ g ∈ runs (modes p.1 p.2), Positive g :=
    fun p hp g hg => (h p hp).positive.of_run hg
  have hlen1 : (IntTuple.mk (built (ps.map runShape))).len = some ps.length := by simp [len_built]
  have hlen2 : strides.len = some ps.length := by simpa using hstrides.len
  have hne : ps.length ≠ 0 := by
    rw [ne_eq, length_eq_zero_iff]
    rintro rfl
    exact absurd hp not_mem_nil
  have hval := isValue_of_len hlen1 hrank
  -- the triples that the loop over the coordinate goes through
  have hcrds : Elements ⟨crd⟩ (fun e i => Exact e (leaf i)) js :=
    ⟨by simp [hcrd.len], fun i j hj => hcrd.getitem (by simp [hj])⟩
  have hshapes : Elements ⟨built (ps.map runShape)⟩
      (fun e p => e = ⟨(runShape p).store.take (runWords p)⟩) ps := by
    refine ⟨hlen1, fun i p hp => ⟨_, ?_, rfl⟩⟩
    exact get_built (by simp [hp]) (denotes_shapeStore (hgood p (mem_of_getElem? hp)))
      (words_le_length _)
  have hsteps : Elements strides (fun e p => Exact e (runStrides p)) ps :=
    ⟨hlen2, fun i p hp => Denotes.getitem hstrides (by simp [hp])⟩
  obtain ⟨zs, hzip3, hall⟩ := hcrds.zip3 hshapes hsteps
  -- the mode that does not fit is one of them
  obtain ⟨i, hip⟩ : ∃ i, (i, p, p) ∈ js.zip (ps.zip ps) := by
    obtain ⟨j, hj, rfl⟩ := getElem_of_mem hp
    have hj' : j < js.length := by omega
    refine ⟨js[j], mem_iff_getElem?.mpr ⟨j, ?_⟩⟩
    simp [hj, hj']
  obtain ⟨⟨x, y, z⟩, hmem, hx, hy, hz⟩ := exists_of_forall₂ hall hip
  have hy : y = ⟨(runShape p).store.take (runWords p)⟩ := hy
  obtain ⟨hthree, hylen, j, hj, hnone⟩ :=
    exists_get_eq_none (hgood p hp) (fun g hg => runs_ne_nil hg) hfit
  have hzlen : z.len = some (coalesced (modes p.1 p.2)).length := by
    rw [Exact.len_ofLeaves hz, length_map]
  have hznz : (coalesced (modes p.1 p.2)).length ≠ 0 := by
    rw [coalesced, mergedAll, if_neg (by rintro hnil; rw [hnil] at hthree; simp at hthree),
      length_map]
    omega
  have hbad : ∀ fuel, crd2idx fuel x y z = none := by
    intro fuel
    rw [hy]
    exact crd2idx_eq_none hx hylen hthree hzlen hznz hj hnone
  rw [call]
  cases hsize : (IntTuple.mk (built (ps.map runShape))).size with
  | zero => rfl
  | succ fuel =>
    simp only [crd2idx, hcrd.isValue_node, crd2idxGeneral, resolveStride, hlen2, if_neg hne,
      ownedCopy_eq, hval, hzip3, some_bind, Bool.false_eq_true, if_false]
    exact foldlM_eq_none hmem (by intro r; simp [hbad]) 0

end Fit

/-! ### Both ways -/

/-- `r` is `l`, of shape `s`, with each mode coalesced: the modes are, and the offset of every
tuple of indices for them is the same. -/
def KeepsRank (r l : Layout) (s : Nest) : Prop :=
  (∀ (k : ℕ) (t : Nest), s.children[k]? = some t →
    ∃ r' l', r.getitem k = some r' ∧ l.getitem k = some l' ∧ Coalesced r' l' t) ∧
  ∀ (crd : IntTuple) (k : ℕ) (js : List ℤ), Denotes crd.store k (node (js.map leaf)) →
    List.Forall₂ (fun i t => 0 ≤ i ∧ i < t.size) js s.children →
    ∃ v, r.call crd = some v ∧ l.call crd = some v

section Coalesce

variable {S D : IntArray} {n m : ℕ} {s d : Nest}

/-- A layout of rank one is coalesced as its only mode is. -/
theorem coalesce_rank_one (hs : Denotes S n s) (hd : Denotes D m d) (h : Admissible s d)
    (hrank : s.children.length = 1) :
    ∃ r, coalesce ⟨⟨S⟩, ⟨D⟩⟩ true = some r ∧ HasModes r (coalesced (modes s d)) := by
  have hcc := congruent_children h.congruent
  obtain ⟨t, ht⟩ := length_eq_one_iff.mp hrank
  obtain ⟨u, hu⟩ := length_eq_one_iff.mp (hcc.length_eq.symm.trans hrank)
  obtain ⟨⟨⟨x⟩, ⟨y⟩⟩, hget, ⟨n', hx⟩, m', hy⟩ :=
    getitem_spec hs hd h.congruent (k := 0) (p := (t, u)) (by simp [ht, hu])
  have hmodes : modes s d = modes t u := by
    rw [modes, modes, ← leaves_children s, ← leaves_children d, ht, hu]
    simp
  have htu : Admissible t u := h.child (p := (t, u)) (by simp [ht, hu])
  obtain ⟨rd, hflat, hrd⟩ := coalesceFlat_spec hx hy htu
  have hlen : rd.len = some (coalesced (modes t u)).length := by
    rw [hrd.len_ofLeaves, length_map]
  have hne : (coalesced (modes t u)).length ≠ 0 := by
    rw [coalesced, mergedAll]
    split <;> simp_all
  refine ⟨⟨⟨shapeStore (runs (modes t u))⟩, rd⟩, ?_, ?_⟩
  · have hl : Layout.len ⟨⟨S⟩, ⟨D⟩⟩ = some 1 := by rw [← hrank]; exact hs.len
    simp [coalesce, hl, hget, hflat, init_of_len hlen hne]
  · rw [hmodes]
    exact hasModes_shapeStore htu.positive hrd

/-- With `keep_rank`, a layout of another rank is coalesced exactly when all its shapes fit. -/
theorem keepsRank_iff {strides : IntTuple} (hs : Denotes S n s) (hd : Denotes D m d)
    (h : Admissible s d) (hrank : s.children.length ≠ 1)
    (hstrides : Exact strides (node ((s.children.zip d.children).map runStrides))) :
    KeepsRank ⟨⟨built ((s.children.zip d.children).map runShape)⟩, strides⟩ ⟨⟨S⟩, ⟨D⟩⟩ s ↔
      ∀ p ∈ s.children.zip d.children, Fits (runs (modes p.1 p.2)) := by
  have hps : ∀ p ∈ s.children.zip d.children, Admissible p.1 p.2 := fun p hp => h.child hp
  have hlen : (s.children.zip d.children).length = s.children.length := by
    rw [length_zip, (congruent_children h.congruent).length_eq, min_self]
  obtain ⟨ss, rfl⟩ : ∃ ss, s = node ss := by
    cases s with
    | leaf v => exact absurd rfl hrank
    | node ss => exact ⟨ss, rfl⟩
  obtain ⟨ds, rfl, hall⟩ := h.congruent.exists_node
  rw [children_node, children_node] at *
  constructor
  · -- at the coordinate zero one side would have no value
    rintro ⟨-, hcall⟩
    by_contra hfit
    obtain ⟨e, he⟩ := exists_exact (node ((ss.map fun _ => (0 : ℤ)).map leaf)) (by
      intro v hv
      have hmin := minimumValue_neg
      rw [leaves_node, mem_flatMap] at hv
      obtain ⟨t, ht, hv⟩ := hv
      simp only [map_map, mem_map, Function.comp_apply] at ht
      obtain ⟨_, _, rfl⟩ := ht
      rw [leaves_leaf, mem_singleton] at hv
      omega)
    obtain ⟨v, hv, -⟩ := hcall e _ _ he (by
      rw [children_node, forall₂_map_left_iff, forall₂_same]
      exact fun t ht => ⟨le_rfl, Nest.size_pos (h.pos.of_mem ht)⟩)
    have hnone := call_keepRank_none hps (by rwa [hlen]) hfit hstrides he (by simp [hlen])
    rw [show call _ e = none from hnone] at hv
    cases hv
  · intro hfit
    obtain ⟨k, hshape⟩ := denotes_runShapes hps hfit
    refine ⟨?_, ?_⟩
    · intro j t ht
      have hj : j < ds.length := hall.length_eq ▸ (List.getElem_of_getElem? ht).1
      have hp : (ss.zip ds)[j]? = some (t, ds[j]) := by
        rw [getElem?_zip_eq_some]
        exact ⟨ht, getElem?_eq_getElem hj⟩
      have hmem := mem_of_getElem? hp
      obtain ⟨r', hr', hshows⟩ := getitem_spec hshape hstrides
        (admissible_node hps).congruent (k := j)
        (p := (runExtents (t, ds[j]), runStrides (t, ds[j]))) (by simp [zip_map', hp])
      obtain ⟨⟨⟨x⟩, ⟨y⟩⟩, hl', ⟨n', hx⟩, m', hy⟩ := getitem_spec hs hd h.congruent hp
      exact ⟨r', _, hr', hl', coalesced_of_hasModes hshows hx hy (hps _ hmem)⟩
    · rintro ⟨crd⟩ k js hcrd hr
      have hr' : Forall₂ (fun i p => 0 ≤ i ∧ i < p.1.size) js (ss.zip ds) := by
        have hfst := hr
        rw [children_node, ← map_fst_zip hall.length_eq.le] at hfst
        exact forall₂_map_right_iff.mp hfst
      exact ⟨_, call_keepRank hps hfit hstrides hcrd hr', call_top hs hd h hcrd hr⟩

end Coalesce

end Layout
