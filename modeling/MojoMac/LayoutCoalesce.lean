/-
Coalescing layouts.

* `Layout.coalesceFlat_spec` — without `keep_rank` the result has the runs of the modes of the
  layout, in the store that `shapeStore` describes;
* `Layout.Coalesced` — same size, same offsets, and nothing left to merge;
* `Layout.coalesce_spec` — `coalesce` does this; with `keep_rank` the coalesced modes are put
  into new tuples, which goes well exactly when their shapes fit.
-/
import MojoMac.CoalesceStore
import MojoMac.LayoutCoordinates

open MixedRadix List

namespace Nest

theorem ofLeaves_singleton (v : ℤ) : ofLeaves [v] = leaf v := rfl

theorem ofLeaves_concat {vs : List ℤ} (h : vs ≠ []) (v : ℤ) :
    ofLeaves (vs ++ [v]) = node ((ofLeaves vs).children ++ [leaf v]) := by
  obtain ⟨w, vs, rfl⟩ := exists_cons_of_ne_nil h
  rw [children_ofLeaves]
  cases vs with
  | nil => rfl
  | cons u vs => simp [ofLeaves]

/-- A shape and strides that fit each other, with positive extents and no negative stride. -/
structure Admissible (s d : Nest) : Prop where
  congruent : Nest.Congruent s d
  pos : s.Pos
  nonneg : ∀ w ∈ d.leaves, 0 ≤ w

namespace Admissible

variable {s d : Nest}

theorem positive (h : Admissible s d) : Positive (modes s d) := positive_modes h.pos d

theorem modes_nonneg (h : Admissible s d) : ∀ m ∈ modes s d, 0 ≤ m.2 :=
  fun _ hm => h.nonneg _ (of_mem_zip hm).2

theorem laid (h : Admissible s d) : Laid s d :=
  ⟨h.congruent, h.pos, fun w hw => IntTuple.known_of_nonneg (h.nonneg w hw)⟩

theorem of_modes (hc : s.Congruent d) (hpos : Positive (modes s d))
    (hnn : ∀ m ∈ modes s d, 0 ≤ m.2) : Admissible s d := by
  have hlen := hc.leaves_length
  refine ⟨hc, fun v hv => ?_, fun w hw => ?_⟩
  · rw [← map_fst_zip hlen.le] at hv
    obtain ⟨m, hm, rfl⟩ := mem_map.mp hv
    exact hpos m hm
  · rw [← map_snd_zip hlen.ge] at hw
    obtain ⟨m, hm, rfl⟩ := mem_map.mp hw
    exact hnn m hm

end Admissible

end Nest

namespace IntTuple

open Nest

/-! ### Flattened tuples -/

section Flat

variable {a b : IntArray} {n m : ℕ} {t u : Nest}

theorem flatten_denotes (h : Denotes a n t) :
    ∃ b m, (IntTuple.mk a).flatten = some ⟨b⟩ ∧ Denotes b m (ofLeaves t.leaves) := by
  rcases flatten_spec h with ⟨hf, ht⟩ | hf
  · exact ⟨a, n, hf, ht ▸ h⟩
  · exact ⟨_, _, hf, exact_ofInts h.minimumValue_le⟩

theorem childElements (h : Denotes a n t) : Elements ⟨a⟩ Exact t.children :=
  ⟨h.len, fun _ _ hs => h.getitem hs⟩

/-- Zipping flat tuples. -/
theorem zip_leaves_spec {xs ys : List ℤ} (ha : Denotes a n (ofLeaves xs))
    (hb : Denotes b m (ofLeaves ys)) : ∃ ps, (IntTuple.mk a).zip ⟨b⟩ = some ps ∧
      Forall₂ (fun p q => Exact p.1 (leaf q.1) ∧ Exact p.2 (leaf q.2)) ps (xs.zip ys) := by
  obtain ⟨ps, hps, hall⟩ := (childElements ha).zip (childElements hb)
  refine ⟨ps, hps, ?_⟩
  rw [children_ofLeaves, children_ofLeaves, zip_map, forall₂_map_right_iff] at hall
  exact hall

theorem eq_ofInt {v : ℤ} (h : Denotes a n (leaf v)) (w : ℤ) (hw : minimumValue ≤ w) :
    (IntTuple.mk a).eq (ofInt w) = some (decide (v = w)) := by
  obtain ⟨fuel, hfuel⟩ : ∃ f, a.length = f + 1 := ⟨a.length - 1, by have := h.length_pos; omega⟩
  have hb : Denotes (ofInt w).store 2 (leaf w) := exact_ofInt hw
  have hlen : (ofInt w).len = some 1 := hb.len
  obtain ⟨ha1, ha2⟩ := h.isValueAt_leaf
  obtain ⟨hb1, hb2⟩ : (ofInt w).isValueAt 0 = some true ∧ (ofInt w).valueAt 0 = some w :=
    hb.isValueAt_leaf
  simp only [IntTuple.eq, size, hfuel, isEqual, h.len, hlen, children_leaf, length_singleton,
    some_bind, ne_eq, not_true_eq_false, if_false, range_one, allM, ha1, ha2, hb1, hb2, if_true]
  cases decide (v = w) <;> simp

end Flat

end IntTuple

namespace Layout

open Nest IntTuple

/-! ### The loop -/

section Loop

variable {ms : List Mode} {rs rd : IntTuple}

/-- The two results after some modes. -/
def CoalesceState (ms : List Mode) (r : IntTuple × IntTuple) : Prop :=
  r.1 = ⟨shapeStore (runs ms)⟩ ∧ Exact r.2 (ofLeaves ((coalesced ms).map Prod.snd))

theorem coalesceState_nil : CoalesceState [] (ofInt 1, ofInt 0) := by
  refine ⟨rfl, exact_ofInt ?_⟩
  have hmin := minimumValue_neg
  omega

/-- The last elements of the two results. -/
theorem exists_last {a : IntArray} {n : ℕ} (vs : List ℤ) {v : ℤ}
    (h : Denotes a n (ofLeaves (vs ++ [v]))) : (IntTuple.mk a).len = some (vs.length + 1) ∧
      ∃ e, (IntTuple.mk a).get vs.length = some e ∧ Exact e (leaf v) := by
  refine ⟨by simp [h.len, children_ofLeaves], h.getitem ?_⟩
  simp [children_ofLeaves]

/-- Overwriting the single integer of a tuple. -/
theorem replaceEntryInt_leaf {e : IntTuple} {v w : ℤ} (h : Exact e (leaf v))
    (hw : minimumValue ≤ w) : ∃ e', e.replaceEntryInt 0 w = some e' ∧ Exact e' (leaf w) := by
  obtain ⟨a⟩ := e
  obtain ⟨m, hrep, hd, -⟩ := replaceEntryInt_spec h (show 0 < (leaf v).children.length by simp) hw
  refine ⟨_, hrep, ?_⟩
  have htwo : a.length = 2 := by
    generalize hl : a.length = k at h
    rw [Exact, IntTuple.size, hl] at h
    cases h
    rfl
  have hd' : Denotes (a.set 1 (some w)) m (leaf w) := hd
  rw [Exact, IntTuple.size, length_set, htwo]
  cases hd'
  assumption

theorem mergedAll_concat (gs : List (List Mode)) (g : List Mode) :
    mergedAll (gs ++ [g]) = gs.map merged ++ [merged g] := by
  simp [mergedAll]

/-- One turn of the loop takes one mode to the runs. -/
theorem coalesceStep_spec {r z : IntTuple × IntTuple} {m : Mode} (hr : CoalesceState ms r)
    (hms : Positive ms) (hnn : ∀ n ∈ ms, 0 ≤ n.2) (hm1 : 0 < m.1) (hm2 : 0 ≤ m.2)
    (hz1 : Exact z.1 (leaf m.1)) (hz2 : Exact z.2 (leaf m.2)) :
    ∃ r', coalesceStep r z = some r' ∧ CoalesceState (ms ++ [m]) r' := by
  obtain ⟨⟨rs⟩, ⟨rd⟩⟩ := r
  obtain ⟨hrs, hrd⟩ := hr
  cases hrs
  have hpos : ∀ g ∈ runs ms, Positive g := fun g hg => hms.of_run hg
  have hshape := denotes_shapeStore hpos
  have ht1 := hz1.toInt
  have ht2 := hz2.toInt
  have hmin := minimumValue_neg
  have hlen1 : (IntTuple.mk (shapeStore (runs ms))).len = some (mergedAll (runs ms)).length := by
    simp [hshape.len, children_ofLeaves]
  have hlen2 : (IntTuple.mk rd).len = some (mergedAll (runs ms)).length := by
    rw [hrd.len_ofLeaves, length_map, coalesced]
  by_cases h1 : m.1 = 1
  · -- a mode of extent one changes nothing
    refine ⟨(⟨shapeStore (runs ms)⟩, ⟨rd⟩), by simp [coalesceStep, ht1, ht2, hlen1, hlen2, h1], ?_⟩
    rw [CoalesceState, coalesced, runs_concat_unit ms h1]
    exact ⟨rfl, hrd⟩
  rcases eq_nil_or_concat (runs ms) with hnil | ⟨gs, g, hconcat⟩
  · -- the first mode takes the place of the initial one
    rw [hnil] at hshape hlen1 hlen2 ⊢
    obtain ⟨-, e, he, hed⟩ := exists_last [] hshape
    have heq : e.eq (ofInt 1) = some true := by simpa using eq_ofInt hed 1 (by omega)
    have hrd0 : Exact ⟨rd⟩ (leaf 0) := by
      simpa [coalesced, hnil, mergedAll, ofLeaves_singleton] using hrd
    obtain ⟨rd', hrd', hexact⟩ := replaceEntryInt_leaf hrd0 (show minimumValue ≤ m.2 by omega)
    have hrs' : (IntTuple.mk (shapeStore [])).replaceEntryInt 0 m.1 = some ⟨shapeStore [[m]]⟩ := by
      simp [IntTuple.replaceEntryInt, IntArray.setitem, shapeStore, shapeEntries, assemble,
        entryWords, Entry.word, merged_singleton, runEntries, runData]
    refine ⟨(⟨shapeStore [[m]]⟩, rd'), ?_, ?_⟩
    · have he' : (IntTuple.mk (shapeStore [])).get 0 = some e := he
      simp [coalesceStep, ht1, ht2, hlen1, hlen2, h1, mergedAll, he', heq, hrs', hrd']
    · rw [CoalesceState, coalesced, runs_concat_first hnil h1]
      exact ⟨rfl, by simpa [mergedAll, merged_singleton, ofLeaves_singleton] using hexact⟩
  rw [concat_eq_append] at hconcat
  have hg : g ∈ runs ms := by rw [hconcat]; simp
  have hgne := runs_ne_nil hg
  obtain ⟨l, hl⟩ : ∃ l, l ∈ g.getLast? := ⟨g.getLast hgne, getLast_mem_getLast? hgne⟩
  have hend := merged_mul (runs_isChain hg) hl
  have hext := one_lt_merged hms hg
  have hstride : 0 ≤ (merged g).2 := by
    obtain ⟨k, g', rfl⟩ := exists_cons_of_ne_nil hgne
    simpa [merged] using hnn k (mem_of_mem_runs hg (by simp)).1
  have hall : mergedAll (runs ms) = gs.map merged ++ [merged g] := by rw [hconcat, mergedAll_concat]
  rw [coalesced, hall, map_append] at hrd
  rw [hall, map_append] at hshape
  rw [hall] at hlen1 hlen2
  obtain ⟨-, e, he, hed⟩ := exists_last _ hshape
  obtain ⟨-, f, hf, hfd⟩ := exists_last _ hrd
  simp only [length_map] at he hf
  have hne : e.eq (ofInt 1) = some false := by
    have h := eq_ofInt hed 1 (by omega)
    rwa [decide_eq_false (by omega)] at h
  have het := hed.toInt
  have hft := hfd.toInt
  obtain ⟨hk1, hk2, hk3, hk4⟩ : unknownValue ≠ m.1 ∧ unknownValue ≠ m.2 ∧
      unknownValue ≠ (merged g).1 ∧ unknownValue ≠ (merged g).2 := by
    have hneg := unknownValue_neg
    omega
  by_cases hjoin : (merged g).1 * (merged g).2 = m.2
  · -- the mode joins the last run
    have hruns := runs_concat_join hconcat h1 (m := m) (by
      intro k hk
      rw [Option.mem_unique hk hl, contiguous, ← hend, hjoin, beq_self_eq_true])
    have hlt : gs.length + 1 < (shapeStore (runs ms)).length := by
      rw [shapeStore, assemble, length_append, length_cons, entryWords_length,
        shapeEntries_length, hall]
      simp
      omega
    have hset : (IntTuple.mk (shapeStore (runs ms))).replaceEntryInt gs.length
        ((merged g).1 * m.1) = some ⟨shapeStore (gs ++ [g ++ [m]])⟩ := by
      rw [IntTuple.replaceEntryInt, IntArray.setitem_of_lt hlt, hconcat, shapeStore_join gs hgne]
      rfl
    refine ⟨(⟨shapeStore (gs ++ [g ++ [m]])⟩, ⟨rd⟩), ?_, ?_⟩
    · simp [coalesceStep, ht1, ht2, hlen1, hlen2, h1, he, hf, hne, het, hft, hjoin, hk1, hk2, hk3,
        hk4, hset]
    · rw [CoalesceState, coalesced, hruns, mergedAll_concat, merged_concat hgne]
      refine ⟨rfl, ?_⟩
      simpa using hrd
  · -- the mode starts a new run
    have hruns := runs_concat_break hconcat h1 (m := m) (by
      intro k hk
      rw [Option.mem_unique hk hl, contiguous, ← hend, beq_eq_false_iff_ne]
      exact hjoin)
    have happ : (IntTuple.mk (shapeStore (runs ms))).append [ofInt m.1]
        = some ⟨shapeStore (gs ++ [g] ++ [[m]])⟩ := by
      obtain ⟨g0, gs0, hg0⟩ := exists_cons_of_ne_nil (show gs ++ [g] ≠ [] by simp)
      rw [hconcat, hg0]
      refine shapeStore_break g0 gs0 m ?_
      have hin := inside_shapeEntries hpos
      rwa [hconcat, hg0] at hin
    obtain ⟨rd', hrd', hexact⟩ := append_exact hrd (exact_ofInt (show minimumValue ≤ m.2 by omega))
    refine ⟨(⟨shapeStore (gs ++ [g] ++ [[m]])⟩, rd'), ?_, ?_⟩
    · have hrd'' : (IntTuple.mk rd).append [ofInt m.2] = some rd' := hrd'
      simp [coalesceStep, ht1, ht2, hlen1, hlen2, h1, he, hf, hne, het, hft, hjoin, happ, hrd'']
    rw [CoalesceState, coalesced, hruns, mergedAll_concat, merged_singleton]
    refine ⟨rfl, ?_⟩
    rw [map_append, map_singleton, ofLeaves_concat (by simp), map_append, map_append]
    exact hexact

/-- The whole loop. -/
theorem foldlM_coalesceStep {zs : List (IntTuple × IntTuple)} (hms : Positive ms)
    (hnn : ∀ m ∈ ms, 0 ≤ m.2)
    (hzs : Forall₂ (fun z m => Exact z.1 (leaf m.1) ∧ Exact z.2 (leaf m.2)) zs ms) :
    ∃ r, zs.foldlM coalesceStep (ofInt 1, ofInt 0) = some r ∧ CoalesceState ms r := by
  refine (exists_foldlM_snoc (fun r ns => CoalesceState ns r ∧ ∀ n ∈ ns, n ∈ ms) hzs ?_
    ⟨coalesceState_nil, by simp⟩).imp fun r hr => ⟨hr.1, hr.2.1⟩
  rintro r ns z m hm ⟨hz1, hz2⟩ ⟨hr, hsub⟩
  obtain ⟨r', hr', hstate⟩ := coalesceStep_spec hr (fun n hn => hms n (hsub n hn))
    (fun n hn => hnn n (hsub n hn)) (hms m hm) (hnn m hm) hz1 hz2
  refine ⟨r', hr', hstate, fun n hn => ?_⟩
  rcases mem_append.mp hn with hn | hn
  · exact hsub n hn
  · rw [mem_singleton.mp hn]
    exact hm

end Loop

/-! ### Without `keep_rank` -/

section Flat

variable {S D : IntArray} {n m : ℕ} {s d : Nest}

theorem init_of_len {shape stride : IntTuple} {k : ℕ} (hlen : stride.len = some k) (hk : k ≠ 0) :
    init shape stride = some ⟨shape, stride⟩ := by
  simp [init, ownedCopy_eq, resolveStride, hlen, hk]

theorem get_shapeStore_single {gs : List (List Mode)} (hpos : ∀ g ∈ gs, Positive g)
    (h : (mergedAll gs).length = 1) :
    (IntTuple.mk (shapeStore gs)).get 0 = some ⟨shapeStore gs⟩ := by
  have hmin := minimumValue_neg
  match gs, h with
  | [], _ => rfl
  | [g], _ =>
    have hg := merged_pos (hpos g (by simp))
    have hle : minimumValue ≤ (merged g).1 := by omega
    simp [shapeStore, shapeEntries, runEntries, runData, assemble, entryWords, Entry.word,
      IntTuple.get, IntTuple.len, IntArray.getitem, uncheckedGet, hle, ofInt]
  | g :: g' :: gs, h => simp [mergedAll] at h

/-- Coalescing stores the runs of the modes. -/
theorem coalesceFlat_spec (hs : Denotes S n s) (hd : Denotes D m d) (h : Admissible s d) :
    ∃ rd, coalesceFlat ⟨⟨S⟩, ⟨D⟩⟩ = some ⟨⟨shapeStore (runs (modes s d))⟩, rd⟩ ∧
      Exact rd (ofLeaves ((coalesced (modes s d)).map Prod.snd)) := by
  obtain ⟨S', n', hfs, hs'⟩ := flatten_denotes hs
  obtain ⟨D', m', hfd, hd'⟩ := flatten_denotes hd
  obtain ⟨zs, hzip, hzs⟩ := zip_leaves_spec hs' hd'
  obtain ⟨⟨rs, rd⟩, hloop, hrs, hrd⟩ := foldlM_coalesceStep h.positive h.modes_nonneg hzs
  obtain rfl : rs = ⟨shapeStore (runs (modes s d))⟩ := hrs
  have hrd : Exact rd (ofLeaves ((coalesced (modes s d)).map Prod.snd)) := hrd
  have hrun : ∀ g ∈ runs (modes s d), Positive g := fun g hg => h.positive.of_run hg
  have hshape := denotes_shapeStore hrun
  have hlen1 : (IntTuple.mk (shapeStore (runs (modes s d)))).len
      = some (coalesced (modes s d)).length := by
    simp [hshape.len, children_ofLeaves, coalesced]
  have hlen2 : rd.len = some (coalesced (modes s d)).length := by
    rw [hrd.len_ofLeaves, length_map]
  by_cases hone : (coalesced (modes s d)).length = 1
  · -- a single mode is taken out of its tuple
    obtain ⟨p, hp⟩ := length_eq_one_iff.mp hone
    have hget := get_shapeStore_single hrun hone
    rw [hp, map_singleton, ofLeaves_singleton] at hrd
    obtain ⟨e, he, hed⟩ := Denotes.getitem hrd (i := 0) rfl
    have he' : rd.get 0 = some e := he
    refine ⟨e, ?_, by rwa [hp, map_singleton, ofLeaves_singleton]⟩
    simp only [coalesceFlat, hfs, hfd, hzip, hloop, hlen1, hone, if_true, hget, he', some_bind]
    exact init_of_len hed.len (by simp)
  · refine ⟨rd, ?_, hrd⟩
    simp only [coalesceFlat, hfs, hfd, hzip, hloop, hlen1, if_neg hone, some_bind]
    refine init_of_len hlen2 ?_
    simp only [coalesced, mergedAll, ne_eq, length_eq_zero_iff]
    split <;> simp_all

end Flat

/-! ### Layouts with given modes -/

section Modes

variable {l : Layout} {ms : List Mode}

/-- The layout has the given modes, without nesting. -/
def HasModes (l : Layout) (ms : List Mode) : Prop :=
  (∃ n, Denotes l.shape.store n (ofLeaves (ms.map Prod.fst))) ∧
    ∃ n, Denotes l.stride.store n (ofLeaves (ms.map Prod.snd))

theorem congruentAll_leaves {xs ys : List ℤ} (h : xs.length = ys.length) :
    Forall₂ Nest.Congruent (xs.map leaf) (ys.map leaf) := by
  rw [forall₂_map_left_iff, forall₂_map_right_iff, forall₂_iff_get]
  exact ⟨h, fun i _ _ => trivial⟩

theorem congruent_ofLeaves {xs ys : List ℤ} (h : xs.length = ys.length) :
    Nest.Congruent (ofLeaves xs) (ofLeaves ys) := by
  have hall := congruentAll_leaves h
  match xs, ys, h with
  | [], [], _ => exact congruent_node.mpr hall
  | [x], [y], _ => trivial
  | x :: x' :: xs, y :: y' :: ys, _ => exact congruent_node.mpr hall

theorem zip_fst_snd (ms : List Mode) : (ms.map Prod.fst).zip (ms.map Prod.snd) = ms := by
  induction ms with
  | nil => rfl
  | cons m ms ih => simp [ih]

theorem modes_ofLeaves (ms : List Mode) :
    modes (ofLeaves (ms.map Prod.fst)) (ofLeaves (ms.map Prod.snd)) = ms := by
  rw [modes, leaves_ofLeaves, leaves_ofLeaves, zip_fst_snd]

theorem admissible_ofLeaves (hpos : Positive ms) (hnn : ∀ m ∈ ms, 0 ≤ m.2) :
    Admissible (ofLeaves (ms.map Prod.fst)) (ofLeaves (ms.map Prod.snd)) :=
  .of_modes (congruent_ofLeaves (by simp)) (by rwa [modes_ofLeaves]) (by rwa [modes_ofLeaves])

/-- The layout has the given shape and strides. -/
def Shows (l : Layout) (s d : Nest) : Prop :=
  (∃ n, Denotes l.shape.store n s) ∧ ∃ m, Denotes l.stride.store m d

section Shows

variable {s d : Nest}

theorem Shows.size_eq (h : l.Shows s d) (ha : Admissible s d) :
    l.size = some (MixedRadix.size (modes s d)) := by
  obtain ⟨⟨n, hs⟩, -⟩ := h
  rw [size_modes ha.congruent]
  exact product_spec hs ha.pos le_rfl

/-- A layout evaluates indices by its modes. -/
theorem Shows.call_eq (h : l.Shows s d) (ha : Admissible s d) {idx : IntTuple} {k : ℕ} {i : ℤ}
    (hidx : Denotes idx.store k (leaf i)) (h0 : 0 ≤ i) (hi : i < MixedRadix.size (modes s d)) :
    l.call idx = some (eval (modes s d) i) := by
  obtain ⟨⟨n, hs⟩, m, hd⟩ := h
  rw [size_modes ha.congruent] at hi
  exact crd2idx_int hidx h0 hi hs hd ha.laid le_rfl

end Shows

theorem HasModes.size_eq (h : HasModes l ms) (hpos : Positive ms) (hnn : ∀ m ∈ ms, 0 ≤ m.2) :
    l.size = some (MixedRadix.size ms) := by
  have hsize := Shows.size_eq h (admissible_ofLeaves hpos hnn)
  rwa [modes_ofLeaves] at hsize

theorem HasModes.call_eq (h : HasModes l ms) (hpos : Positive ms) (hnn : ∀ m ∈ ms, 0 ≤ m.2)
    {idx : IntTuple} {k : ℕ} {i : ℤ} (hidx : Denotes idx.store k (leaf i)) (h0 : 0 ≤ i)
    (hi : i < MixedRadix.size ms) : l.call idx = some (eval ms i) := by
  rw [← modes_ofLeaves ms] at hi ⊢
  exact Shows.call_eq h (admissible_ofLeaves hpos hnn) hidx h0 hi

theorem nonneg_coalesced (hnn : ∀ m ∈ ms, 0 ≤ m.2) : ∀ m ∈ coalesced ms, 0 ≤ m.2 := by
  intro m hm
  rw [coalesced, mergedAll] at hm
  split at hm
  · rw [mem_singleton.mp hm]
  · obtain ⟨g, hg, rfl⟩ := mem_map.mp hm
    obtain ⟨k, g', rfl⟩ := exists_cons_of_ne_nil (runs_ne_nil hg)
    simpa [merged] using hnn k (mem_of_mem_runs hg (by simp)).1

end Modes

/-- `r` is `l`, of shape `s`, without needless modes: the same size and the same offset at
every index, no mode of extent one but in `1:0`, and no two neighbours that could be merged. -/
def Coalesced (r l : Layout) (s : Nest) : Prop :=
  ∃ ms, HasModes r ms ∧ r.size = l.size ∧ l.size = some s.size ∧
    (∀ (idx : IntTuple) (k : ℕ) (i : ℤ), Denotes idx.store k (leaf i) → 0 ≤ i → i < s.size →
      ∃ v, r.call idx = some v ∧ l.call idx = some v) ∧
    (ms = [(1, 0)] ∨ ∀ m ∈ ms, m.1 ≠ 1) ∧ ms.IsChain fun m n => m.1 * m.2 ≠ n.2

theorem coalesced_of_hasModes {r : Layout} {S D : IntArray} {n m : ℕ} {s d : Nest}
    (hr : HasModes r (coalesced (modes s d))) (hs : Denotes S n s) (hd : Denotes D m d)
    (h : Admissible s d) : Coalesced r ⟨⟨S⟩, ⟨D⟩⟩ s := by
  have hl : Shows ⟨⟨S⟩, ⟨D⟩⟩ s d := ⟨⟨n, hs⟩, m, hd⟩
  have hsize := hl.size_eq h
  have hcpos := positive_coalesced h.positive
  have hcnn := nonneg_coalesced h.modes_nonneg
  have hcsize := size_coalesced (modes s d)
  rw [Coalesced, ← size_modes h.congruent]
  refine ⟨coalesced (modes s d), hr, ?_, hsize, ?_, coalesced_extent h.positive, ?_⟩
  · rw [hr.size_eq hcpos hcnn, hcsize, hsize]
  · intro idx k i hidx h0 hi
    refine ⟨eval (modes s d) i, ?_, hl.call_eq h hidx h0 hi⟩
    rw [← eval_coalesced h.positive]
    exact hr.call_eq hcpos hcnn hidx h0 (by rwa [hcsize])
  · refine (coalesced_isChain (modes s d)).imp fun m n hbreak => ?_
    simpa [contiguous] using hbreak

theorem hasModes_shapeStore {ms : List Mode} {rd : IntTuple} (hms : Positive ms)
    (hrd : Exact rd (ofLeaves ((coalesced ms).map Prod.snd))) :
    HasModes ⟨⟨shapeStore (runs ms)⟩, rd⟩ (coalesced ms) :=
  ⟨⟨_, denotes_shapeStore fun _ hg => hms.of_run hg⟩, _, hrd⟩

theorem coalesce_flat {S D : IntArray} {n m : ℕ} {s d : Nest} (hs : Denotes S n s)
    (hd : Denotes D m d) (h : Admissible s d) :
    ∃ r, coalesce ⟨⟨S⟩, ⟨D⟩⟩ false = some r ∧ HasModes r (coalesced (modes s d)) := by
  obtain ⟨rd, hflat, hrd⟩ := coalesceFlat_spec hs hd h
  exact ⟨_, by simpa [coalesce] using hflat, hasModes_shapeStore h.positive hrd⟩

end Layout
