/-
Coordinates of nested shapes are mixed-radix numerals.

A shape and congruent strides are a list of modes, one for each pair of leaves (`modes`),
whatever the nesting and whichever leaves stand in their slots or in sub-tuples of their
own.

* `prefixProduct_spec` — the default strides run through the products of the extents;
* `idx2crd2_spec` — `idx2crd` divides by each stride and reduces by each extent;
* `crd2idx_int`, `crd2idx_tuple` — `crd2idx` evaluates an index, and adds up a
  coordinate, on all of its paths;
* `crd2idx_idx2crd` — round trips for default strides, agreement of the two for
  arbitrary ones, and inversion of compact layouts.
-/
import MojoMac.IntTupleIndex
import MojoMac.IntTupleBuild
import MojoMac.MixedRadix

open MixedRadix List

namespace Nest

variable {ts : List Nest} {s d : Nest} {t : Nest}

/-! ### Congruent trees -/

mutual

/-- The same nesting. -/
def Congruent : Nest → Nest → Prop
  | leaf _, leaf _ => True
  | node ts, node us => CongruentAll ts us
  | _, _ => False

def CongruentAll : List Nest → List Nest → Prop
  | [], [] => True
  | t :: ts, u :: us => Congruent t u ∧ CongruentAll ts us
  | _, _ => False

end

attribute [local simp] Congruent CongruentAll

variable {us : List Nest}

theorem congruentAll_iff : CongruentAll ts us ↔ Forall₂ Congruent ts us := by
  induction ts generalizing us with
  | nil => cases us <;> simp
  | cons t ts ih => cases us <;> simp [ih]

theorem congruent_node : Congruent (node ts) (node us) ↔ Forall₂ Congruent ts us := by
  rw [Congruent, congruentAll_iff]

variable {u : Nest}

/-- A tree congruent to a node. -/
theorem Congruent.exists_node (h : Congruent (node ts) u) :
    ∃ us, u = node us ∧ Forall₂ Congruent ts us := by
  cases u with
  | leaf v => exact absurd h (by simp)
  | node us => exact ⟨us, rfl, congruent_node.mp h⟩

theorem Congruent.exists_leaf {v : ℤ} (h : Congruent (leaf v) u) : ∃ w, u = leaf w := by
  cases u with
  | leaf w => exact ⟨w, rfl⟩
  | node us => exact absurd h (by simp)

/-- What holds of related elements holds of two lists. -/
theorem forall₂_of_mem {r p : Nest → Nest → Prop} (h : Forall₂ r ts us)
    (hmem : ∀ t ∈ ts, ∀ u, r t u → p t u) : Forall₂ p ts us :=
  ((forall₂_and_left _ _).mpr ⟨hmem, h⟩).imp fun _ u hboth => hboth.1 u hboth.2

/-- Induction over two congruent trees at once. -/
@[elab_as_elim]
theorem Congruent.elim {motive : Nest → Nest → Prop} (h : Congruent s d)
    (hleaf : ∀ v w, motive (leaf v) (leaf w))
    (hnode : ∀ ss ds, Forall₂ (fun s d => Congruent s d ∧ motive s d) ss ds →
      motive (node ss) (node ds)) : motive s d := by
  induction s using Nest.induct generalizing d with
  | leaf v =>
    obtain ⟨w, rfl⟩ := h.exists_leaf
    exact hleaf v w
  | node ss ih =>
    obtain ⟨ds, rfl, hall⟩ := h.exists_node
    exact hnode ss ds (forall₂_of_mem hall fun s hs d h => ⟨h, ih s hs h⟩)

theorem Congruent.leaves_length {t : Nest} (h : Congruent t u) :
    t.leaves.length = u.leaves.length := by
  refine h.elim (fun v w => rfl) fun ts us hall => ?_
  rw [leaves_node, leaves_node]
  induction hall with
  | nil => rfl
  | cons h _ ih => simp [h.2, ih]

theorem Congruent.symm (h : Congruent s d) : Congruent d s := by
  refine h.elim (fun v w => trivial) fun ss ds hall => congruent_node.mpr ?_
  exact (hall.imp fun _ _ h => h.2).flip

/-- The modes of a shape with strides. -/
def modes (s d : Nest) : List Mode :=
  s.leaves.zip d.leaves

/-- The modes of the elements of two tuples. -/
def modesAll (ss ds : List Nest) : List Mode :=
  (ss.flatMap leaves).zip (ds.flatMap leaves)

@[simp] theorem modes_leaf (v w : ℤ) : modes (leaf v) (leaf w) = [(v, w)] := rfl

@[simp] theorem modes_node (ss ds : List Nest) : modes (node ss) (node ds) = modesAll ss ds := by
  rw [modes, leaves_node, leaves_node, modesAll]

theorem modesAll_cons (h : Congruent s d) (ss ds : List Nest) :
    modesAll (s :: ss) (d :: ds) = modes s d ++ modesAll ss ds := by
  rw [modesAll, flatMap_cons, flatMap_cons, zip_append h.leaves_length]
  rfl

theorem modesAll_append {ss ds : List Nest} (h : Forall₂ Congruent ss ds)
    (ss' ds' : List Nest) :
    modesAll (ss ++ ss') (ds ++ ds') = modesAll ss ds ++ modesAll ss' ds' := by
  induction h with
  | nil => rfl
  | cons hsd _ ih =>
    rw [cons_append, cons_append, modesAll_cons hsd, ih, modesAll_cons hsd, append_assoc]

/-- Every integer is positive. -/
def Pos (t : Nest) : Prop := ∀ v ∈ t.leaves, 0 < v

/-- No integer is the unknown marker. -/
def Known (t : Nest) : Prop := ∀ v ∈ t.leaves, v ≠ IntTuple.unknownValue

theorem mem_leaves_node (ht : t ∈ ts) {v : ℤ} (hv : v ∈ t.leaves) : v ∈ (node ts).leaves := by
  rw [leaves_node]
  exact mem_flatMap.mpr ⟨t, ht, hv⟩

theorem Pos.of_mem (h : Pos (node ts)) (ht : t ∈ ts) : Pos t :=
  fun v hv => h v (mem_leaves_node ht hv)

theorem Known.of_mem (h : Known (node ts)) (ht : t ∈ ts) : Known t :=
  fun v hv => h v (mem_leaves_node ht hv)

/-- The number of coordinates. -/
def size (t : Nest) : ℤ := t.leaves.prod

theorem size_pos (h : Pos t) : 0 < t.size :=
  prod_pos fun v hv => h v hv

theorem size_node (ts : List Nest) : (node ts).size = (ts.map size).prod := by
  rw [size, leaves_node]
  induction ts with
  | nil => rfl
  | cons t ts ih => simp [ih, size]

theorem positive_modes {s : Nest} (h : Pos s) (d : Nest) : Positive (modes s d) := by
  intro m hm
  exact h _ (of_mem_zip hm).1

theorem size_zip {xs ys : List ℤ} (h : xs.length = ys.length) :
    MixedRadix.size (xs.zip ys) = xs.prod := by
  induction xs generalizing ys with
  | nil => rfl
  | cons x xs ih =>
    cases ys with
    | nil => simp at h
    | cons y ys => simp [MixedRadix.size, ih (by simpa using h)]

theorem size_modes (h : Congruent s d) : MixedRadix.size (modes s d) = s.size :=
  size_zip h.leaves_length

end Nest

namespace IntTuple

open Nest

/-! ### Loops over elements -/

section Loops

variable {a b c : IntArray} {n m k : ℕ} {ts us vs : List Nest}

/-- The elements of a tuple can be read, and are as `P` says of the values `xs`. -/
structure Elements {β : Type} (t : IntTuple) (P : IntTuple → β → Prop) (xs : List β) : Prop where
  len : t.len = some xs.length
  get : ∀ (i : ℕ) (x : β), xs[i]? = some x → ∃ e, t.get i = some e ∧ P e x

theorem Denotes.elements (h : Denotes a n (Nest.node ts)) :
    Elements ⟨a⟩ (fun e s => Exact e s ∧ e.size < a.length) ts :=
  ⟨h.len, fun _ _ hs => h.get hs⟩

variable {β γ δ : Type} {x y z : IntTuple} {P : IntTuple → β → Prop} {Q : IntTuple → γ → Prop}
  {R : IntTuple → δ → Prop} {xs : List β} {ys : List γ} {zs : List δ}

theorem Elements.zip (hx : Elements x P xs) (hy : Elements y Q ys) :
    ∃ ps, x.zip y = some ps ∧ Forall₂ (fun p q => P p.1 q.1 ∧ Q p.2 q.2) ps (xs.zip ys) := by
  have hzip : (xs.zip ys).length = min xs.length ys.length := length_zip
  simp only [IntTuple.zip, hx.len, hy.len, some_bind, ← hzip]
  refine exists_mapM_range fun i q hq => ?_
  obtain ⟨hq1, hq2⟩ := getElem?_zip_eq_some.mp hq
  obtain ⟨e, he, hP⟩ := hx.get i _ hq1
  obtain ⟨f, hf, hQ⟩ := hy.get i _ hq2
  exact ⟨(e, f), by simp [he, hf], hP, hQ⟩

theorem Elements.zip3 (hx : Elements x P xs) (hy : Elements y Q ys) (hz : Elements z R zs) :
    ∃ ps, x.zip3 y z = some ps ∧ Forall₂ (fun p q =>
      P p.1 q.1 ∧ Q p.2.1 q.2.1 ∧ R p.2.2 q.2.2) ps (xs.zip (ys.zip zs)) := by
  have hzip : (xs.zip (ys.zip zs)).length = min xs.length (min ys.length zs.length) := by simp
  simp only [IntTuple.zip3, hx.len, hy.len, hz.len, some_bind, ← hzip]
  refine exists_mapM_range fun i q hq => ?_
  obtain ⟨hq1, hq'⟩ := getElem?_zip_eq_some.mp hq
  obtain ⟨hq2, hq3⟩ := getElem?_zip_eq_some.mp hq'
  obtain ⟨e, he, hP⟩ := hx.get i _ hq1
  obtain ⟨f, hf, hQ⟩ := hy.get i _ hq2
  obtain ⟨g, hg, hR⟩ := hz.get i _ hq3
  exact ⟨(e, f, g), by simp [he, hf, hg], hP, hQ, hR⟩

/-- A loop whose state stands for the elements it has gone through. -/
theorem exists_foldlM_snoc {σ α β : Type} {f : σ → α → Option σ} {r : α → β → Prop} {s : σ}
    (inv : σ → List β → Prop) {xs : List α} {ys : List β} (h : Forall₂ r xs ys)
    (hstep : ∀ s qs x, ∀ y ∈ ys, r x y → inv s qs → ∃ s', f s x = some s' ∧ inv s' (qs ++ [y]))
    (hs : inv s []) : ∃ s', xs.foldlM f s = some s' ∧ inv s' ys := by
  have hloop := exists_foldlM_forall₂ inv (fun qs y => qs ++ [y]) h hstep hs
  rwa [foldl_append_eq_append, nil_append, ← flatMap_def, flatMap_singleton'] at hloop

/-- A tuple collected from results that denote `g y` denotes their list. -/
theorem collect_spec {α β : Type} {r : α → β → Prop} {xs : List α} {ys : List β}
    (func : α → Option IntTuple) (g : β → Nest) (h : Forall₂ r xs ys)
    (hfunc : ∀ x, ∀ y ∈ ys, r x y → ∃ e, func x = some e ∧ Exact e (g y)) :
    ∃ e, collect xs func = some e ∧ Exact e (node (ys.map g)) := by
  refine exists_foldlM_snoc (fun e us => Exact e (node (us.map g))) h ?_ exact_empty
  intro s us x y hy hxy hs
  obtain ⟨e, he, hd⟩ := hfunc x y hy hxy
  obtain ⟨e', he', hd'⟩ := append_exact hs hd
  exact ⟨e', by simp [he, he'], by rwa [map_append]⟩

end Loops

/-! ### Products -/

theorem foldl_mul (ts : List Nest) (q : ℤ) :
    ts.foldl (fun q t => q * t.size) q = q * (ts.map Nest.size).prod := by
  induction ts generalizing q with
  | nil => simp
  | cons t ts ih => simp [ih, mul_assoc]

theorem product_spec {a : IntArray} {n : ℕ} {t : Nest} (h : Denotes a n t) (hpos : t.Pos)
    {fuel : ℕ} (hfuel : a.length ≤ fuel) : product fuel ⟨a⟩ = some t.size := by
  induction t using induct generalizing a n fuel with
  | leaf v =>
    obtain ⟨fuel, rfl⟩ := h.exists_fuel hfuel
    simp [product, h.isValue_leaf.1, h.toInt, Nest.size]
  | node ts ih =>
    obtain ⟨fuel, rfl⟩ := h.exists_fuel hfuel
    obtain ⟨es, hes, hall⟩ := h.elems
    simp only [product, h.isValue_node, hes, some_bind, Bool.false_eq_true, if_false]
    -- the accumulator stays positive, so it is never the unknown marker
    refine (exists_foldlM_forall₂ (fun s q => s = q ∧ 0 < q) (fun q t => q * Nest.size t) hall ?_
      ⟨rfl, one_pos⟩).elim fun s hs => hs.1.trans ?_
    · rintro s q ⟨e⟩ t ht ⟨he, hlt⟩ ⟨rfl, hs⟩
      have hknown : s ≠ unknownValue := by have := unknownValue_neg; omega
      refine ⟨s * t.size, ?_, rfl, mul_pos hs (size_pos (hpos.of_mem ht))⟩
      cases t with
      | leaf v => simp [hknown, Denotes.isValue_leaf he, Exact.toInt he, Nest.size]
      | node us =>
        simp only [size] at hlt
        have hrec := ih _ ht he (hpos.of_mem ht) (show e.length ≤ fuel by omega)
        simp [hknown, Denotes.isValue_node he, hrec]
    · rw [hs.2.1, foldl_mul, one_mul, size_node]

end IntTuple

namespace Nest

/-! ### Running products -/

mutual

/-- Each integer replaced by the product of all integers before it, times `q`. -/
def prefixes : Nest → ℤ → Nest
  | leaf _, q => leaf q
  | node ts, q => node (prefixesAll ts q)

def prefixesAll : List Nest → ℤ → List Nest
  | [], _ => []
  | t :: ts, q => prefixes t q :: prefixesAll ts (q * t.size)

end

attribute [local simp] prefixesAll

@[simp] theorem prefixes_leaf (v q : ℤ) : (leaf v).prefixes q = leaf q := by
  rw [prefixes]

@[simp] theorem prefixes_node (ts : List Nest) (q : ℤ) :
    (node ts).prefixes q = node (prefixesAll ts q) := by
  rw [prefixes]

theorem foldl_prefixes (ts us : List Nest) (q : ℤ) :
    ts.foldl (fun p t => (p.1 ++ [t.prefixes p.2], p.2 * t.size)) (us, q)
      = (us ++ prefixesAll ts q, q * (ts.map size).prod) := by
  induction ts generalizing us q with
  | nil => simp
  | cons t ts ih => simp [ih, mul_assoc]

theorem congruentAll_prefixes {ts : List Nest} (h : ∀ t ∈ ts, ∀ q, Congruent t (t.prefixes q))
    (q : ℤ) : Forall₂ Congruent ts (prefixesAll ts q) := by
  induction ts generalizing q with
  | nil => exact Forall₂.nil
  | cons t ts ih =>
    rw [prefixesAll]
    exact Forall₂.cons (h t (by simp) q) (ih (fun s hs => h s (by simp [hs])) _)

theorem congruent_prefixes (t : Nest) (q : ℤ) : Congruent t (t.prefixes q) := by
  induction t using induct generalizing q with
  | leaf v =>
    rw [prefixes_leaf]
    trivial
  | node ts ih =>
    rw [prefixes_node, congruent_node]
    exact congruentAll_prefixes ih q

theorem runs_append {q : ℤ} {ms ns : List Mode} :
    Runs q (ms ++ ns) ↔ Runs q ms ∧ Runs (q * MixedRadix.size ms) ns := by
  induction ms generalizing q with
  | nil => simp [Runs, MixedRadix.size]
  | cons m ms ih => simp [Runs, ih, MixedRadix.size, mul_assoc, and_assoc]

/-- Column-major strides run through the products of the extents. -/
theorem runs_prefixes (t : Nest) (q : ℤ) : Runs q (modes t (t.prefixes q)) := by
  induction t using induct generalizing q with
  | leaf v => simp [Runs]
  | node ts ih =>
    rw [prefixes_node, modes_node]
    induction ts generalizing q with
    | nil => simp [modesAll, Runs]
    | cons t ts ih' =>
      have ht := congruent_prefixes t q
      rw [prefixesAll, modesAll_cons ht, runs_append, size_modes ht]
      exact ⟨ih t (by simp) q, ih' (fun s hs => ih s (by simp [hs])) _⟩

variable {t : Nest}

/-- The running products are positive. -/
theorem pos_prefixes (h : Pos t) {q : ℤ} (hq : 0 < q) : Pos (t.prefixes q) := by
  induction t using induct generalizing q with
  | leaf v => simpa [Pos] using hq
  | node ts ih =>
    rw [prefixes_node]
    intro v hv
    rw [leaves_node] at hv
    induction ts generalizing q with
    | nil => simp at hv
    | cons t ts ih' =>
      rw [prefixesAll, flatMap_cons, mem_append] at hv
      rcases hv with hv | hv
      · exact ih t (by simp) (h.of_mem (by simp)) hq v hv
      refine ih' (fun s hs => ih s (by simp [hs])) ?_
        (mul_pos hq (size_pos (h.of_mem (t := t) (by simp)))) hv
      intro w hw
      refine h w ?_
      rw [leaves_node] at hw ⊢
      simp [hw]

theorem Pos.known (h : Pos t) : Known t := by
  intro v hv hu
  have hpos := h v hv
  have hneg := IntTuple.unknownValue_neg
  omega

/-- Strides that fit their extents: the extents positive, the strides known. -/
structure Laid (s d : Nest) : Prop where
  fits : Congruent s d
  pos : Pos s
  known : Known d

variable {s : Nest}

theorem Laid.of_zip {ss ds : List Nest} (h : Laid (node ss) (node ds)) {d : Nest}
    (hmem : (s, d) ∈ ss.zip ds) : Laid s d where
  fits := (forall₂_iff_zip.mp (congruent_node.mp h.fits)).2 hmem
  pos := h.pos.of_mem (of_mem_zip hmem).1
  known := h.known.of_mem (of_mem_zip hmem).2

theorem Laid.get {ss ds : List Nest} (h : Laid (node ss) (node ds)) {j : ℕ} {d : Nest}
    (hs : ss[j]? = some s) (hd : ds[j]? = some d) : Laid s d :=
  h.of_zip (mem_of_getElem? (getElem?_zip_eq_some.mpr ⟨hs, hd⟩))

theorem Laid.prefixes (hpos : Pos s) : Laid s (s.prefixes 1) :=
  ⟨congruent_prefixes s 1, hpos, (pos_prefixes hpos one_pos).known⟩

end Nest

namespace IntTuple

open Nest

theorem prefixProduct2_spec {a : IntArray} {n : ℕ} {t : Nest} (h : Denotes a n t) (hpos : t.Pos)
    {fuel : ℕ} (hfuel : a.length ≤ fuel) {q : ℤ} (hq : 0 < q) :
    ∃ e, prefixProduct2 fuel ⟨a⟩ (ofInt q) = some e ∧ Exact e (t.prefixes q) := by
  induction t using induct generalizing a n fuel q with
  | leaf v =>
    obtain ⟨fuel, rfl⟩ := h.exists_fuel hfuel
    have hmin := minimumValue_neg
    have hinit : Exact (ofInt q) (leaf q) := exact_ofInt (by omega)
    refine ⟨ofInt q, ?_, by rwa [prefixes_leaf]⟩
    simp [prefixProduct2, h.isValue_leaf.1, Denotes.isValue_leaf hinit, ownedCopy_eq]
  | node ts ih =>
    obtain ⟨fuel, rfl⟩ := h.exists_fuel hfuel
    have hmin := minimumValue_neg
    have hinit : Exact (ofInt q) (leaf q) := exact_ofInt (by omega)
    obtain ⟨es, hes, hall⟩ := h.elems
    -- the running product is positive, so neither it nor an extent is the unknown marker
    simp only [prefixProduct2, h.isValue_node, Denotes.isValue_leaf hinit, Exact.toInt hinit, hes,
      some_bind, Bool.false_eq_true, if_false, if_true]
    refine (exists_foldlM_forall₂ (s := (empty, q)) (q := ([], q))
      (fun s p => Exact s.1 (node p.1) ∧ s.2 = p.2 ∧ 0 < p.2)
      (fun p t => (p.1 ++ [t.prefixes p.2], p.2 * t.size)) hall ?_ ⟨exact_empty, rfl, hq⟩).elim
      fun s hs => ⟨s.1, congrArg (· >>= fun r => some r.1) hs.1, ?_⟩
    · rintro ⟨r, w⟩ ⟨us, p⟩ ⟨e⟩ t ht ⟨he, hlt⟩ ⟨hr, rfl, hw⟩
      have hw : 0 < w := hw
      simp only [size] at hlt
      have hneg := unknownValue_neg
      have hknown : w ≠ unknownValue := by omega
      obtain ⟨x, hx, hxd⟩ := ih t ht he (hpos.of_mem ht) (show e.length ≤ fuel by omega) hw
      obtain ⟨r', hr', hrd⟩ := append_exact hr hxd
      have hprod := product_spec he (hpos.of_mem ht) (le_refl e.length)
      refine ⟨(r', w * t.size), ?_, hrd, rfl, mul_pos hw (size_pos (hpos.of_mem ht))⟩
      cases t with
      | leaf v =>
        have hv : v ≠ unknownValue := hpos.of_mem ht |>.known v (by simp)
        obtain ⟨hval, -⟩ := Denotes.isValue_leaf he
        simp [hx, hr', hval, Exact.toInt he, hv, hknown, size, hprod]
      | node vs => simp [hx, hr', Denotes.isValue_node he, hknown, size, hprod]
    · have hr := hs.2.1
      rwa [foldl_prefixes, nil_append, ← prefixes_node] at hr

end IntTuple

namespace Nest

/-! ### Coordinates -/

mutual

/-- The coordinate of `i`: divided by each stride and reduced by each extent. -/
def coords (i : ℤ) : Nest → Nest → Nest
  | leaf v, leaf w => leaf (floormod (floordiv i w) v)
  | node ss, node ds => node (coordsAll i ss ds)
  | _, _ => node []

def coordsAll (i : ℤ) : List Nest → List Nest → List Nest
  | s :: ss, d :: ds => coords i s d :: coordsAll i ss ds
  | _, _ => []

end

attribute [local simp] coords coordsAll

theorem coordsAll_eq (i : ℤ) (ss ds : List Nest) :
    coordsAll i ss ds = (ss.zip ds).map fun p => coords i p.1 p.2 := by
  induction ss generalizing ds with
  | nil => simp
  | cons s ss ih =>
    cases ds with
    | nil => simp
    | cons d ds => simp [ih]

theorem coords_node (i : ℤ) (ss ds : List Nest) :
    coords i (node ss) (node ds) = node ((ss.zip ds).map fun p => coords i p.1 p.2) := by
  rw [coords, coordsAll_eq]

/-- The digit of `i` at a mode. -/
def digit (i : ℤ) (m : Mode) : ℤ := floormod (floordiv i m.2) m.1

theorem leaves_coords {s d : Nest} (h : Congruent s d) (i : ℤ) :
    (coords i s d).leaves = (modes s d).map (digit i) := by
  refine h.elim (fun v w => by simp [digit]) fun ss ds hall => ?_
  rw [coords_node, leaves_node, modes_node]
  induction hall with
  | nil => rfl
  | cons h _ ih =>
    rw [modesAll_cons h.1, map_append, zip_cons_cons, map_cons, flatMap_cons, h.2, ih]

theorem congruent_coords {s d : Nest} (h : Congruent s d) (i : ℤ) : Congruent (coords i s d) s := by
  refine h.elim (fun v w => by simp [Congruent]) fun ss ds hall => ?_
  rw [coords_node, congruent_node]
  induction hall with
  | nil => exact Forall₂.nil
  | cons h _ ih => exact Forall₂.cons h.2 ih

end Nest

namespace IntTuple

open Nest

variable {stride : IntTuple} {fuel : ℕ} {a : IntArray} {n : ℕ} {t : Nest}

theorem prefixProduct_spec (h : Denotes a n t) (hpos : t.Pos) {q : ℤ} (hq : 0 < q) :
    ∃ e, prefixProduct ⟨a⟩ q = some e ∧ Exact e (t.prefixes q) := by
  cases t with
  | leaf v =>
    have hmin := minimumValue_neg
    refine ⟨ofInt q, ?_, by rw [prefixes_leaf]; exact exact_ofInt (by omega)⟩
    simp [prefixProduct, h.len, h.isValue_leaf]
  | node ts =>
    by_cases hnil : ts = []
    · subst hnil
      refine ⟨empty, ?_, by simpa [prefixesAll] using exact_empty⟩
      simp [prefixProduct, h.len]
    · obtain ⟨e, he, hd⟩ := prefixProduct2_spec h hpos (le_refl a.length) hq
      refine ⟨e, ?_, hd⟩
      simp [prefixProduct, h.len, h.isValue_node, hnil, size, he]

/-! ### Strides -/

variable {S D : IntArray} {m : ℕ} {s d : Nest}

theorem resolveStride_congruent (hs : Denotes S n s) (hd : Denotes D m d) (hc : Congruent s d) :
    ∃ D' m', resolveStride ⟨S⟩ ⟨D⟩ = some ⟨D'⟩ ∧ Denotes D' m' d := by
  by_cases hlen : d.children.length = 0
  · -- without strides there are no extents either
    have hd' : d = node [] := by
      cases d with
      | leaf v => simp at hlen
      | node ds => simpa using hlen
    subst hd'
    cases s with
    | leaf v => exact absurd hc (by simp [Nest.Congruent])
    | node ss =>
      obtain rfl : ss = [] := by simpa [congruent_node] using hc
      refine ⟨empty.store, _, ?_, exact_empty⟩
      simp [resolveStride, hd.len, prefixProduct, hs.len]
  · exact ⟨D, m, by simp [resolveStride, hd.len, hlen, ownedCopy_eq], hd⟩

theorem resolveStride_default (hs : Denotes S n s)
    (hpos : s.Pos) : ∃ D m, resolveStride ⟨S⟩ empty = some ⟨D⟩ ∧ Denotes D m (s.prefixes 1) := by
  obtain ⟨e, he, hd⟩ := prefixProduct_spec hs hpos one_pos
  refine ⟨e.store, _, ?_, hd⟩
  have hlen : empty.len = some 0 := rfl
  simp [resolveStride, hlen, he]

variable {k : ℕ} {i : ℤ}

/-- On an index `idx2crd2` computes the coordinate that `coords` describes. -/
theorem idx2crd2_spec {idx : IntArray} (hidx : Denotes idx k (leaf i)) (hi : i ≠ unknownValue)
    (hs : Denotes S n s) (hstride : resolveStride ⟨S⟩ stride = some ⟨D⟩) (hd : Denotes D m d)
    (h : Laid s d) (hfuel : S.length ≤ fuel) :
    ∃ e, idx2crd2 fuel ⟨idx⟩ ⟨S⟩ stride = some e ∧ Exact e (coords i s d) := by
  induction s using induct generalizing S D n m d stride fuel with
  | leaf v =>
    obtain ⟨fuel, rfl⟩ := hs.exists_fuel hfuel
    obtain ⟨w, rfl⟩ := h.fits.exists_leaf
    have hv : 0 < v := h.pos v (by simp)
    have hvu : v ≠ unknownValue := h.pos.known v (by simp)
    have hwu : w ≠ unknownValue := h.known w (by simp)
    have hmin := minimumValue_neg
    refine ⟨ofInt (floormod (floordiv i w) v), ?_, ?_⟩
    · simp [idx2crd2, hstride, hidx.isValue_leaf, hs.isValue_leaf, hidx.toInt, hd.toInt,
        hs.toInt, hi, hvu, hwu]
    have hnonneg := Int.emod_nonneg (floordiv i w) hv.ne'
    rw [coords]
    refine exact_ofInt ?_
    rw [floormod_of_pos hv]
    omega
  | node ss ih =>
    obtain ⟨fuel, rfl⟩ := hs.exists_fuel hfuel
    obtain ⟨ds, rfl, -⟩ := h.fits.exists_node
    obtain ⟨ps, hps, hzip⟩ := hs.elements.zip hd.elements
    obtain ⟨e, he, hed⟩ := collect_spec (fun z => idx2crd2 fuel ⟨idx⟩ z.1 z.2)
      (fun p => coords i p.1 p.2) hzip (by
        rintro ⟨⟨x⟩, ⟨y⟩⟩ ⟨s, d⟩ hmem ⟨⟨hx, hlt⟩, hy, -⟩
        have hsd := h.of_zip hmem
        obtain ⟨y', m', hres, hy'⟩ := resolveStride_congruent hx hy hsd.fits
        simp only [size] at hlt
        exact ih s (of_mem_zip hmem).1 hx hres hy' hsd (show x.length ≤ fuel by omega))
    refine ⟨e, ?_, by rwa [coords_node]⟩
    simp [idx2crd2, hstride, hidx.isValue_leaf, hs.isValue_node, hps, he]

/-! ### Evaluating an index -/

variable {rec : IntTuple → IntTuple → IntTuple → Option ℤ} {ss ds : List Nest}

/-- The recursive call evaluates indices in shapes of fewer than `N` words. -/
def EvaluatesBelow (N : ℕ) (rec : IntTuple → IntTuple → IntTuple → Option ℤ) : Prop :=
  ∀ {crd S D : IntArray} {k n m : ℕ} {i : ℤ} {s d : Nest}, Denotes crd k (leaf i) → 0 ≤ i →
    i < s.size → Denotes S n s → Denotes D m d → Laid s d → S.length < N →
    rec ⟨crd⟩ ⟨S⟩ ⟨D⟩ = some (eval (modes s d) i)

section Index

/-- The recursive call on the digit group of one element. -/
theorem EvaluatesBelow.element (hrec : EvaluatesBelow S.length rec) (hs : Denotes S n (node ss))
    (hd : Denotes D m (node ds)) (h : Laid (node ss) (node ds)) {j : ℕ}
    (hsj : ss[j]? = some s) (hdj : ds[j]? = some d) :
    ∃ x y, (IntTuple.mk S).get j = some x ∧ (IntTuple.mk D).get j = some y ∧
      product S.length x = some s.size ∧
      ∀ i, 0 ≤ i → i < s.size → rec (ofInt i) x y = some (eval (modes s d) i) := by
  obtain ⟨x, hx, hxd, hxlt⟩ := hs.get hsj
  obtain ⟨y, hy, hyd, -⟩ := hd.get hdj
  have hsd := h.get hsj hdj
  refine ⟨x, y, hx, hy, product_spec hxd hsd.pos hxlt.le, fun i h0 hi => ?_⟩
  have hmin := minimumValue_neg
  exact hrec (exact_ofInt (by omega)) h0 hi hxd hyd hsd hxlt

theorem known_of_nonneg (h0 : 0 ≤ i) : i ≠ unknownValue := by
  have hneg := unknownValue_neg
  omega

theorem crd2idxShortcut_leaf {v w : ℤ} (h0 : 0 ≤ i) (hi : i < v) (hs : Denotes S n (leaf v))
    (hd : Denotes D m (leaf w)) (hknown : w ≠ unknownValue) :
    crd2idxShortcut rec i ⟨S⟩ ⟨D⟩ = some (some (eval [(v, w)] i)) := by
  have hv : v ≠ unknownValue := known_of_nonneg (by omega)
  simp [crd2idxShortcut, hs.isValue_leaf, hs.isValueAt_leaf, hd.len, hd.isValue_leaf,
    hd.isValueAt_leaf, known_of_nonneg h0, hv, hknown, eval, Int.emod_eq_of_lt h0 hi]

/-- Two modes, evaluated from the sizes of the first. -/
theorem eval_pair {s' d' : Nest} (h : Laid s d) (h' : Laid s' d') :
    eval (modesAll [s, s'] [d, d']) i
      = eval (modes s d) (i % s.size) + eval (modes s' d') (i / s.size) := by
  have hms := positive_modes h.pos d
  rw [modesAll_cons h.fits, modesAll_cons h'.fits, eval_append hms, size_modes h.fits,
    ← eval_mod hms i, size_modes h.fits]
  simp [modesAll]

theorem ediv_size_lt {s' : Nest} (hpos : s.Pos) (hi : i < (node [s, s']).size) :
    i / s.size < s'.size := by
  rw [size_node] at hi
  refine Int.ediv_lt_of_lt_mul (size_pos hpos) ?_
  simpa [mul_comm] using hi

theorem slot_cases (h : Denotes a n t) {i : ℕ}
    (hs : t.children[i]? = some s) : ∃ b, (IntTuple.mk a).isValueAt i = some b ∧
      (b = true → ∃ v, s = leaf v ∧ (IntTuple.mk a).valueAt i = some v) := by
  rcases h.child hs with ⟨v, hv, -, hval, hvalue, -⟩ | ⟨e, hval, -⟩
  · exact ⟨true, hval, fun _ => ⟨v, hv, hvalue⟩⟩
  · exact ⟨false, hval, by simp⟩

/-- Two dimensions: all three variants of the shortcut evaluate the index. -/
theorem crd2idxShortcut_pair {s' d' : Nest} (hrec : EvaluatesBelow S.length rec) (h0 : 0 ≤ i)
    (hi : i < (node [s, s']).size) (hs : Denotes S n (node [s, s']))
    (hd : Denotes D m (node [d, d'])) (h : Laid (node [s, s']) (node [d, d'])) :
    crd2idxShortcut rec i ⟨S⟩ ⟨D⟩ = some (some (eval (modesAll [s, s'] [d, d']) i)) := by
  have hfst : Laid s d := h.get (j := 0) rfl rfl
  have hsnd : Laid s' d' := h.get (j := 1) rfl rfl
  have hpos0 : 0 < s.size := size_pos hfst.pos
  have hunk : s.size ≠ unknownValue := known_of_nonneg hpos0.le
  have hlt := ediv_size_lt hfst.pos hi
  obtain ⟨x, y, hx, hy, hprod, hr⟩ := hrec.element hs hd h (j := 0) rfl rfl
  obtain ⟨x', y', hx', hy', -, hr'⟩ := hrec.element hs hd h (j := 1) rfl rfl
  replace hr := hr _ (Int.emod_nonneg i hpos0.ne') (Int.emod_lt_of_pos i hpos0)
  replace hr' := hr' _ (Int.ediv_nonneg h0 hpos0.le) hlt
  have hmod : floormod i s.size = i % s.size := floormod_of_pos hpos0
  have hdiv : floordiv i s.size = i / s.size := floordiv_of_pos hpos0
  -- which of the four elements stand in their slots decides between the variants
  obtain ⟨bs, hbs, hsv⟩ := slot_cases hs (i := 0) (s := s) rfl
  obtain ⟨bs', hbs', hsv'⟩ := slot_cases hs (i := 1) (s := s') rfl
  obtain ⟨bd, hbd, hdv⟩ := slot_cases hd (i := 0) (s := d) rfl
  obtain ⟨bd', hbd', hdv'⟩ := slot_cases hd (i := 1) (s := d') rfl
  simp only [crd2idxShortcut, hs.isValue_node, hs.len, hd.len, children_node, length_cons,
    length_nil, some_bind, Bool.false_eq_true, if_false,
    Nat.zero_add, Nat.reduceAdd, and_self, if_true, known_of_nonneg h0, hbs, hbs', hbd, hbd', hx, hx',
    hy, hy', hprod, hunk, hmod, hdiv, size, hr, hr']
  by_cases hbb : (bd && bd') = true
  · obtain ⟨hb, hb'⟩ := (Bool.and_eq_true _ _).mp hbb
    obtain ⟨w, rfl, hw⟩ := hdv hb
    obtain ⟨w', rfl, hw'⟩ := hdv' hb'
    obtain ⟨v, rfl⟩ := hfst.fits.symm.exists_leaf
    obtain ⟨v', rfl⟩ := hsnd.fits.symm.exists_leaf
    have hv : 0 < v := hfst.pos v (by simp)
    have hv' : 0 < v' := hsnd.pos v' (by simp)
    have hwu : w ≠ unknownValue := hfst.known w (by simp)
    have hwu' : w' ≠ unknownValue := hsnd.known w' (by simp)
    have hsize : (leaf v).size = v := by simp [Nest.size]
    have hsize' : (leaf v').size = v' := by simp [Nest.size]
    have heval : eval (modesAll [leaf v, leaf v'] [leaf w, leaf w']) i
        = i % v * w + i / v % v' * w' := by
      simp [modesAll, eval]
    rw [hsize, hsize'] at hlt
    by_cases hbs2 : (bs && bs') = true
    · obtain ⟨hb2, hb2'⟩ := (Bool.and_eq_true _ _).mp hbs2
      obtain ⟨u, hu, hval⟩ := hsv hb2
      obtain ⟨u', hu', hval'⟩ := hsv' hb2'
      cases hu
      cases hu'
      simp [hb2, hb2', hb, hb', hval, hval', hw, hw', hwu, hwu', known_of_nonneg hv.le,
        known_of_nonneg hv'.le, floormod_of_pos hv, floordiv_of_pos hv, floormod_of_pos hv', heval]
    · have hlow : i / v % v' = i / v := Int.emod_eq_of_lt (Int.ediv_nonneg h0 hv.le) hlt
      simp [hbs2, hb, hb', hw, hw', hwu, hwu', hsize, heval, hlow]
  · have hall : ¬ (bs && bs' && bd && bd') = true := by
      intro h
      simp only [Bool.and_eq_true] at h hbb
      exact hbb ⟨h.1.2, h.2⟩
    rw [if_neg hall, if_neg hbb, eval_pair hfst hsnd]
    rfl

theorem modesAll_take_succ (hall : Forall₂ Congruent ss ds) {j : ℕ}
    (hj : j < ss.length) (hj' : j < ds.length) : modesAll (ss.take (j + 1)) (ds.take (j + 1))
      = modesAll (ss.take j) (ds.take j) ++ modes ss[j] ds[j] := by
  have hsd : Congruent ss[j] ds[j] := hall.get hj hj'
  rw [take_succ_eq_append_getElem hj, take_succ_eq_append_getElem hj',
    modesAll_append (forall₂_take j hall), modesAll_cons hsd]
  simp [modesAll]

theorem positive_modesAll (hpos : (node ss).Pos) (ds : List Nest) : Positive (modesAll ss ds) := by
  rw [← modes_node]
  exact positive_modes hpos _

theorem Pos.take (hpos : (node ss).Pos) (j : ℕ) : (node (ss.take j)).Pos := by
  intro v hv
  rw [leaves_node, mem_flatMap] at hv
  obtain ⟨t, ht, hv⟩ := hv
  exact hpos.of_mem (mem_of_mem_take ht) v hv

/-- The loop over the dimensions evaluates the index, digit group by digit group. -/
theorem crd2idxGeneral_int {crd : IntArray}
    (hrec : EvaluatesBelow S.length rec) (hcrd : Denotes crd k (leaf i)) (h0 : 0 ≤ i)
    (hi : i < (node ss).size) (hs : Denotes S n (node ss))
    (hstride : resolveStride ⟨S⟩ stride = some ⟨D⟩) (hd : Denotes D m (node ds))
    (h : Laid (node ss) (node ds)) :
    crd2idxGeneral rec ⟨crd⟩ ⟨S⟩ stride = some (eval (modesAll ss ds) i) := by
  have hall := congruent_node.mp h.fits
  have hlen := hall.length_eq
  simp only [crd2idxGeneral, hstride, hcrd.isValue_leaf, hcrd.toInt, hs.isValue_node, hs.len, hd.len,
    children_node, some_bind, Bool.false_eq_true, if_false, if_true]
  by_cases hnil : ss.length = 0
  · obtain rfl : ss = [] := length_eq_zero_iff.mp hnil
    simp [modesAll, eval]
  rw [if_neg hnil]
  -- after `j` turns: what is left of the index, and the value of its first groups
  let low : ℕ → List Mode := fun j => modesAll (ss.take j) (ds.take j)
  let st : ℕ → ℤ × ℤ := fun j => (i / MixedRadix.size (low j), eval (low j) i)
  have hlow : ∀ j, Positive (low j) := fun j => positive_modesAll (Pos.take h.pos j) _
  have hstep : ∀ j (hj : j < ss.length) (hj' : j < ds.length),
      low (j + 1) = low j ++ modes ss[j] ds[j] := fun j hj hj' => modesAll_take_succ hall hj hj'
  have hst0 : st 0 = (i, 0) := by simp [st, low, modesAll, MixedRadix.size, eval]
  have helem := fun j (hj : j < ss.length) (hj' : j < ds.length) => hrec.element hs hd h
    (getElem?_eq_getElem hj) (getElem?_eq_getElem hj')
  rw [← hst0, foldlM_range st]
  · -- the last group is what remains of the index
    obtain ⟨j, hj⟩ : ∃ j, ss.length = j + 1 := ⟨ss.length - 1, by omega⟩
    have hj' : j < ss.length := by omega
    have hj'' : j < ds.length := by omega
    have hc : Congruent ss[j] ds[j] := hall.get hj' hj''
    have htotal : modesAll ss ds = low j ++ modes ss[j] ds[j] := by
      rw [← hstep j hj' hj'']
      simp only [low]
      rw [take_of_length_le (by omega), take_of_length_le (by omega)]
    have hlt : i / MixedRadix.size (low j) < ss[j].size := by
      refine Int.ediv_lt_of_lt_mul (MixedRadix.size_pos (hlow j)) ?_
      rw [← size_modes h.fits, modes_node, htotal, size_append, size_modes hc, mul_comm] at hi
      exact hi
    obtain ⟨x, y, hx, hy, -, hr⟩ := helem j hj' hj''
    have hr := hr _ (Int.ediv_nonneg h0 (MixedRadix.size_pos (hlow j)).le) hlt
    have hds : ds.length - 1 = j := by omega
    simp only [hj, Nat.add_sub_cancel, some_bind, hds, hx, hy, st, hr, htotal, eval_append (hlow j)]
    rfl
  · intro j hj
    have hj' : j < ss.length := by omega
    have hj'' : j < ds.length := by omega
    have hp : ss[j].Pos := h.pos.of_mem (getElem_mem hj')
    have hsize : 0 < ss[j].size := size_pos hp
    have hc : Congruent ss[j] ds[j] := hall.get hj' hj''
    obtain ⟨x, y, hx, hy, hprod, hr⟩ := helem j hj' hj''
    have hr := hr _ (Int.emod_nonneg (i / MixedRadix.size (low j)) hsize.ne')
      (Int.emod_lt_of_pos _ hsize)
    have hmod := eval_mod (positive_modes hp ds[j]) (i / MixedRadix.size (low j))
    rw [size_modes hc] at hmod
    simp only [st, size, hx, hy, hprod, floormod_of_pos hsize, floordiv_of_pos hsize, hr, hmod,
      hstep j hj' hj'', eval_append (hlow j), size_append, size_modes hc, some_bind]
    rw [Int.ediv_ediv_of_nonneg (MixedRadix.size_pos (hlow j)).le]
    rfl

end Index

section Evaluation

variable {crd : IntArray} {c : Nest}

/-- **`crd2idx` evaluates an index**, on whichever path. -/
theorem crd2idx_int (hcrd : Denotes crd k (leaf i)) (h0 : 0 ≤ i) (hi : i < s.size)
    (hs : Denotes S n s) (hd : Denotes D m d) (h : Laid s d)
    (hfuel : S.length ≤ fuel) : crd2idx fuel ⟨crd⟩ ⟨S⟩ ⟨D⟩ = some (eval (modes s d) i) := by
  induction fuel generalizing crd S D k n m i s d with
  | zero =>
    have hpos := hs.length_pos
    omega
  | succ fuel ih =>
    have hrec : EvaluatesBelow S.length (crd2idx fuel) := by
      intro crd' S' D' k' n' m' i' s' d' hcrd' h0' hi' hs' hd' h' hlt
      exact ih hcrd' h0' hi' hs' hd' h' (by omega)
    obtain ⟨-, hval⟩ := hcrd.isValueAt_leaf
    cases s with
    | leaf v =>
      obtain ⟨w, rfl⟩ := h.fits.exists_leaf
      have hi' : i < v := by simpa [Nest.size] using hi
      have hshort : crd2idxShortcut (crd2idx fuel) i ⟨S⟩ ⟨D⟩ = some (some (eval [(v, w)] i)) :=
        crd2idxShortcut_leaf h0 hi' hs hd (h.known w (by simp))
      simp [crd2idx, hcrd.isValue_leaf, hval, hshort]
    | node ss =>
      obtain ⟨ds, rfl, hall⟩ := h.fits.exists_node
      by_cases htwo : ss.length = 2
      · obtain ⟨s, s', rfl⟩ := length_eq_two.mp htwo
        obtain ⟨d, d', rfl⟩ := length_eq_two.mp (hall.length_eq.symm.trans htwo)
        have hshort := crd2idxShortcut_pair hrec h0 hi hs hd h
        simp [crd2idx, hcrd.isValue_leaf, hval, hshort]
      · obtain ⟨D', m', hstride, hd'⟩ := resolveStride_congruent hs hd h.fits
        have hgen := crd2idxGeneral_int hrec hcrd h0 hi hs hstride hd' h
        have hshort : crd2idxShortcut (crd2idx fuel) i ⟨S⟩ ⟨D⟩ = some none := by
          simp [crd2idxShortcut, hs.isValue_node, hs.len, hd.len, htwo]
        simp [crd2idx, hcrd.isValue_leaf, hval, hshort, hgen]

/-- Without strides `crd2idx` evaluates with the column-major ones. -/
theorem crd2idx_int_default (hcrd : Denotes crd k (leaf i)) (h0 : 0 ≤ i) (hi : i < s.size)
    (hs : Denotes S n s) (hpos : s.Pos) :
    crd2idx S.length ⟨crd⟩ ⟨S⟩ empty = some (eval (modes s (s.prefixes 1)) i) := by
  obtain ⟨fuel, hfuel⟩ := hs.exists_fuel le_rfl
  have hrec : EvaluatesBelow S.length (crd2idx fuel) := by
    intro crd' S' D' k' n' m' i' s' d' hcrd' h0' hi' hs' hd' h' hlt
    exact crd2idx_int hcrd' h0' hi' hs' hd' h' (by omega)
  obtain ⟨-, hval⟩ := hcrd.isValueAt_leaf
  have hempty : empty.len = some 0 := rfl
  rw [hfuel]
  cases s with
  | leaf v =>
    have hi' : i < v := by simpa [Nest.size] using hi
    have hv : v ≠ unknownValue := hpos.known v (by simp)
    have heval : eval [(v, 1)] i = i := by simp [eval, Int.emod_eq_of_lt h0 hi']
    simp [crd2idx, hcrd.isValue_leaf, hval, crd2idxShortcut, hs.isValue_leaf, hs.isValueAt_leaf,
      known_of_nonneg h0, hv, hempty, heval]
  | node ss =>
    obtain ⟨D, m, hstride, hd⟩ := resolveStride_default hs hpos
    have hlaid := Laid.prefixes hpos
    rw [prefixes_node] at hd hlaid ⊢
    have hgen := crd2idxGeneral_int hrec hcrd h0 hi hs hstride hd hlaid
    simp [crd2idx, hcrd.isValue_leaf, hval, crd2idxShortcut, hs.isValue_node, hs.len, hempty, hgen]

/-! ### Evaluating a coordinate -/

theorem InRange.split {ms ns : List Mode} {as bs : List ℤ} (h : InRange (ms ++ ns) (as ++ bs))
    (hlen : as.length = ms.length) : InRange ms as ∧ InRange ns bs := by
  have hl := forall₂_take_append _ _ _ h
  have hr := forall₂_drop_append _ _ _ h
  rw [hlen, take_left] at hl
  rw [hlen, drop_left] at hr
  exact ⟨hl, hr⟩

theorem length_modes (hc : s.Congruent d) : (modes s d).length = s.leaves.length := by
  simp [modes, hc.leaves_length]

theorem forall₂_zip3 {α β γ : Type} {r : α → β → Prop} {r' : β → γ → Prop} {xs : List α}
    {ys : List β} {zs : List γ} (h : Forall₂ r xs ys) (h' : Forall₂ r' ys zs) :
    ∀ p ∈ xs.zip (ys.zip zs), r p.1 p.2.1 ∧ r' p.2.1 p.2.2 := by
  induction h generalizing zs with
  | nil => simp
  | cons hr _ ih =>
    cases h' with
    | cons hr' h' =>
      intro p hp
      rcases mem_cons.mp hp with rfl | hp
      · exact ⟨hr, hr'⟩
      · exact ih h' p hp

/-- The elements of a coordinate with their extents and strides: each in range, their values
adding up. -/
theorem value_modesAll {cs : List Nest} (hall : Forall₂ Congruent ss ds)
    (hcs : Forall₂ Congruent cs ss) (hr : InRange (modesAll ss ds) (cs.flatMap leaves)) :
    (∀ z ∈ cs.zip (ss.zip ds), InRange (modes z.2.1 z.2.2) z.1.leaves) ∧
      MixedRadix.value (modesAll ss ds) (cs.flatMap leaves)
        = ((cs.zip (ss.zip ds)).map fun z => MixedRadix.value (modes z.2.1 z.2.2) z.1.leaves).sum := by
  induction hcs generalizing ds with
  | nil => simp [MixedRadix.value]
  | @cons c s cs ss hcs _ ih =>
    cases hall with
    | @cons _ d _ ds hsd hall =>
      rw [modesAll_cons hsd, flatMap_cons] at hr ⊢
      obtain ⟨hl, hr⟩ := InRange.split hr (by rw [length_modes hsd, hcs.leaves_length])
      obtain ⟨hmem, hsum⟩ := ih hall hr
      refine ⟨?_, ?_⟩
      · intro z hz
        rcases mem_cons.mp hz with rfl | hz
        · exact hl
        · exact hmem z hz
      · rw [value_append hl, hsum]
        rfl

theorem foldl_add {α : Type} (f : α → ℤ) (xs : List α) (q : ℤ) :
    xs.foldl (fun q x => q + f x) q = q + (xs.map f).sum := by
  induction xs generalizing q with
  | nil => simp
  | cons x xs ih => simp [ih, add_assoc]

/-- The loop over a coordinate adds up the values of its elements. -/
theorem crd2idxGeneral_sum {cs : List Nest} (func : Nest × Nest × Nest → ℤ)
    (hrec : ∀ {x y z : IntTuple} {p : Nest × Nest × Nest}, p ∈ cs.zip (ss.zip ds) → Exact x p.1 →
      Exact y p.2.1 → Exact z p.2.2 → y.size < S.length → rec x y z = some (func p))
    (hcrd : Denotes crd k (node cs)) (hs : Denotes S n (node ss))
    (hstride : resolveStride ⟨S⟩ stride = some ⟨D⟩) (hd : Denotes D m (node ds)) :
    crd2idxGeneral rec ⟨crd⟩ ⟨S⟩ stride = some ((cs.zip (ss.zip ds)).map func).sum := by
  obtain ⟨ps, hps, hzip⟩ := hcrd.elements.zip3 hs.elements hd.elements
  simp only [crd2idxGeneral, hstride, hcrd.isValue_node, hs.isValue_node, hps, some_bind,
    Bool.false_eq_true, if_false]
  refine (exists_foldlM_forall₂ Eq (fun q p => q + func p) hzip ?_ rfl).elim
    fun q hq => hq.1.trans ?_
  · rintro r q ⟨x, y, z⟩ p hmem ⟨⟨hx, -⟩, ⟨hy, hlt⟩, hz, -⟩ rfl
    have hv := hrec hmem hx hy hz hlt
    exact ⟨_, by simp [hv], rfl⟩
  · rw [hq.2, foldl_add, zero_add]

/-- On a coordinate in range these values are its digits times their strides. -/
theorem crd2idx_node {cs : List Nest}
    (hrec : ∀ {x y z : IntTuple} {c s d : Nest}, c ∈ cs → Exact x c → Exact y s → Exact z d →
      c.Congruent s → Laid s d → InRange (modes s d) c.leaves →
      y.size < S.length → crd2idx fuel x y z = some (MixedRadix.value (modes s d) c.leaves))
    (hcrd : Denotes crd k (node cs)) (hs : Denotes S n (node ss))
    (hstride : resolveStride ⟨S⟩ stride = some ⟨D⟩) (hd : Denotes D m (node ds))
    (hcs : Forall₂ Congruent cs ss) (h : Laid (node ss) (node ds))
    (hr : InRange (modes (node ss) (node ds)) (node cs).leaves) :
    crd2idx (fuel + 1) ⟨crd⟩ ⟨S⟩ stride
      = some (MixedRadix.value (modes (node ss) (node ds)) (node cs).leaves) := by
  rw [modes_node, leaves_node] at hr ⊢
  have hall := congruent_node.mp h.fits
  obtain ⟨hrange, hsum⟩ := value_modesAll hall hcs hr
  rw [hsum]
  simp only [crd2idx, hcrd.isValue_node, some_bind, Bool.false_eq_true, if_false]
  refine crd2idxGeneral_sum _ ?_ hcrd hs hstride hd
  intro x y z p hmem hx hy hz hlt
  obtain ⟨hcm, hsdm⟩ := of_mem_zip hmem
  obtain ⟨hcp, -⟩ := forall₂_zip3 hcs hall p hmem
  exact hrec hcm hx hy hz hcp (h.of_zip hsdm) (hrange p hmem) hlt

/-- **`crd2idx` adds up a coordinate**: each digit times its stride. -/
theorem crd2idx_tuple (hcrd : Denotes crd k c) (hs : Denotes S n s) (hd : Denotes D m d)
    (hcs : c.Congruent s) (h : Laid s d) (hr : InRange (modes s d) c.leaves) (hfuel : S.length ≤ fuel) :
    crd2idx fuel ⟨crd⟩ ⟨S⟩ ⟨D⟩ = some (MixedRadix.value (modes s d) c.leaves) := by
  induction c using induct generalizing crd S D k n m s d fuel with
  | leaf i =>
    obtain ⟨v, rfl⟩ := hcs.exists_leaf
    obtain ⟨w, rfl⟩ := h.fits.exists_leaf
    obtain ⟨h0, hi⟩ : 0 ≤ i ∧ i < v := by simpa [InRange] using hr
    rw [crd2idx_int hcrd h0 (by simpa [Nest.size] using hi) hs hd h hfuel, modes_leaf,
      eval_singleton h0 hi]
    simp [MixedRadix.value]
  | node cs ih =>
    obtain ⟨ss, rfl, hrel⟩ := hcs.exists_node
    obtain ⟨ds, rfl, -⟩ := h.fits.exists_node
    obtain ⟨fuel, rfl⟩ := hs.exists_fuel hfuel
    obtain ⟨D', m', hstride, hd'⟩ := resolveStride_congruent hs hd h.fits
    refine crd2idx_node (fun {x y z c s d} hmem hx hy hz hcs' hsd hin hlt => ?_) hcrd hs hstride
      hd' hrel h hr
    simp only [size] at hlt
    exact ih c hmem hx hy hz hcs' hsd hin (by omega)

theorem crd2idx_tuple_default (hcrd : Denotes crd k c) (hs : Denotes S n s)
    (hcs : c.Congruent s) (hpos : s.Pos) (hr : InRange (modes s (s.prefixes 1)) c.leaves) :
    crd2idx S.length ⟨crd⟩ ⟨S⟩ empty = some (MixedRadix.value (modes s (s.prefixes 1)) c.leaves) := by
  cases c with
  | leaf i =>
    obtain ⟨v, rfl⟩ := hcs.exists_leaf
    obtain ⟨h0, hi⟩ : 0 ≤ i ∧ i < v := by simpa [InRange] using hr
    rw [crd2idx_int_default hcrd h0 (by simpa [Nest.size] using hi) hs hpos, prefixes_leaf,
      modes_leaf, eval_singleton h0 hi]
    simp [MixedRadix.value]
  | node cs =>
    obtain ⟨ss, rfl, hrel⟩ := hcs.exists_node
    obtain ⟨fuel, hfuel⟩ := hs.exists_fuel le_rfl
    obtain ⟨D, m, hstride, hd⟩ := resolveStride_default hs hpos
    have hlaid := Laid.prefixes hpos
    rw [prefixes_node] at hd hr hlaid ⊢
    rw [hfuel]
    refine crd2idx_node (fun {x y z c s d} _ hx hy hz hcs' hsd hin hlt => ?_) hcrd hs hstride hd
      hrel hlaid hr
    simp only [size] at hlt
    exact crd2idx_tuple hx hy hz hcs' hsd hin (by omega)

end Evaluation

end IntTuple
