/-
What `make_ordered_layout` computes.

Each leaf gets the product of the shapes of all leaves of smaller order as its stride, which
makes the layout compact; but only a shape whose integers `to_nest` can put back into their
places gets a layout at all.

* `IntTuple.sortedPerm_spec` — the insertion sort;
* `IntTuple.flatCompactOrder_spec` — the strides of a flat shape;
* `Layout.makeOrderedLayout_spec` — which shapes get the strides of their order.
-/
import MojoMac.Renest
import MojoMac.LayoutInverse

open MixedRadix List

namespace IntTuple

open Nest

variable {i : ℕ} {z : ℤ × ℕ} {st : List ℤ}

/-! ### Flat tuples -/

variable {x : IntTuple} {vs : List ℤ} {v : ℤ}

/-- The elements of the tuple are these integers. -/
def Flat (x : IntTuple) (vs : List ℤ) : Prop :=
  ∃ k f, Denotes x.store k f ∧ f.children = vs.map leaf

section Flat

theorem Flat.len (h : Flat x vs) : x.len = some vs.length := by
  obtain ⟨k, f, hd, hf⟩ := h
  rw [show x.len = some f.children.length from hd.len, hf, length_map]

theorem Flat.get (h : Flat x vs) (hv : vs[i]? = some v) :
    ∃ y, x.get i = some y ∧ y.toInt = some v ∧ Exact y (leaf v) := by
  obtain ⟨k, f, hd, hf⟩ := h
  obtain ⟨y, hy, hyd⟩ := hd.getitem (i := i) (s := leaf v) (by rw [hf, getElem?_map, hv]; rfl)
  exact ⟨y, hy, hyd.toInt, hyd⟩

theorem Flat.minimumValue_le (h : Flat x vs) (hv : v ∈ vs) : minimumValue ≤ v := by
  obtain ⟨k, f, hd, hf⟩ := h
  refine hd.minimumValue_le v ?_
  rw [← leaves_children, hf]
  simpa [flatMap_map] using hv

theorem Flat.replaceEntryInt (h : Flat x vs) (hi : i < vs.length)
    (hv : minimumValue ≤ v) : ∃ y, x.replaceEntryInt i v = some y ∧ Flat y (vs.set i v) := by
  obtain ⟨k, f, hd, hf⟩ := h
  obtain ⟨m, hm, hdm, -⟩ := replaceEntryInt_spec hd (by rwa [hf, length_map]) hv
  refine ⟨_, hm, m, _, hdm, ?_⟩
  rw [Nest.replaceInt, hf, length_map]
  split
  · -- the only element
    rename_i hone
    obtain ⟨w, rfl⟩ := length_eq_one_iff.mp hone
    obtain rfl : i = 0 := by simpa using hi
    rfl
  · rw [children_node, map_set]

theorem flat_ofInts (h : ∀ v ∈ vs, minimumValue ≤ v) : Flat (ofInts vs) vs :=
  ⟨_, _, exact_ofInts h, children_ofLeaves vs⟩

theorem flatten_flat {a : IntArray} {n : ℕ} {t : Nest} (h : Denotes a n t) :
    ∃ x, (IntTuple.mk a).flatten = some x ∧ Flat x t.leaves := by
  rcases flatten_spec h with ⟨hx, ht⟩ | hx
  · exact ⟨_, hx, n, t, h, by rw [ht, children_ofLeaves, leaves_ofLeaves]⟩
  · exact ⟨_, hx, flat_ofInts h.minimumValue_le⟩

end Flat

/-! ### The insertion sort -/

/-- The inner loop moves the larger values up; `h` stands where a value may be written. -/
theorem moveUp_spec (key : ℤ) (A : List (ℤ × ℕ)) : ∀ (h : ℤ × ℕ) (B : List (ℤ × ℕ))
    {x : IntTuple}, Flat x ((A ++ h :: B).map Prod.fst) →
    ∃ A₁ A₂ h' x', A = A₁ ++ A₂ ∧ (∀ z ∈ A₂, key < z.1) ∧ (∀ z ∈ A₁.getLast?, z.1 ≤ key) ∧
      moveUp key A.length x ((A ++ h :: B).map Prod.snd)
        = some (A₁.length, x', (A₁ ++ h' :: (A₂ ++ B)).map Prod.snd) ∧
      Flat x' ((A₁ ++ h' :: (A₂ ++ B)).map Prod.fst) := by
  induction A using reverseRecOn with
  | nil =>
    intro h B x hx
    exact ⟨[], [], h, x, rfl, by simp, by simp, rfl, hx⟩
  | append_singleton A z ih =>
    intro h B x hx
    obtain ⟨y, hy, hyv, -⟩ := hx.get (i := A.length) (v := z.1) (by simp)
    have hidx : ((A ++ [z] ++ h :: B).map Prod.snd)[A.length]? = some z.2 := by simp
    by_cases hlt : key < z.1
    · -- the value moves up, and the place it leaves is free
      obtain ⟨x₁, hx₁, hflat⟩ := hx.replaceEntryInt (i := A.length + 1) (by simp)
        (hx.minimumValue_le (v := z.1) (by simp))
      have hset : ∀ {α : Type} (f : ℤ × ℕ → α), ((A ++ [z] ++ h :: B).map f).set (A.length + 1) (f z)
          = (A ++ z :: (z :: B)).map f := by
        intro α f
        simp
      rw [hset] at hflat
      obtain ⟨A₁, A₂, h', x', rfl, hA₂, hA₁, hrun, hx'⟩ := ih z (z :: B) hflat
      refine ⟨A₁, A₂ ++ [z], h', x', by simp, ?_, hA₁, ?_, by simpa using hx'⟩
      · intro u hu
        rcases mem_append.mp hu with hu | hu
        · exact hA₂ u hu
        · rwa [mem_singleton.mp hu]
      · rw [length_append, length_singleton, moveUp]
        simp only [hy, hyv, hlt, hx₁, hidx, hset, some_bind, if_true]
        rw [hrun]
        simp
    · refine ⟨A ++ [z], [], h, x, by simp, by simp, ?_, ?_, by simpa using hx⟩
      · intro u hu
        obtain rfl : z = u := by simpa using hu
        exact not_lt.mp hlt
      · rw [length_append, length_singleton, moveUp]
        simp only [hy, hyv, hlt, some_bind, if_false]
        simp

/-- One turn puts the next value into its place among the sorted ones. -/
theorem sortedPermStep_spec {L R : List (ℤ × ℕ)}
    (hx : Flat x ((L ++ z :: R).map Prod.fst)) (hL : L.Pairwise fun u v => u.1 ≤ v.1) :
    ∃ L' x', sortedPermStep (x, (L ++ z :: R).map Prod.snd) L.length
        = some (x', (L' ++ R).map Prod.snd) ∧ Flat x' ((L' ++ R).map Prod.fst) ∧
      L'.Perm (L ++ [z]) ∧ L'.Pairwise fun u v => u.1 ≤ v.1 := by
  obtain ⟨y, hy, hyv, -⟩ := hx.get (i := L.length) (v := z.1) (by simp)
  have hidx : ((L ++ z :: R).map Prod.snd)[L.length]? = some z.2 := by simp
  obtain ⟨L₁, L₂, h', x₁, rfl, hL₂, hL₁, hrun, hx₁⟩ := moveUp_spec z.1 L z R hx
  obtain ⟨x', hx', hflat⟩ := hx₁.replaceEntryInt (i := L₁.length) (by simp)
    (hx.minimumValue_le (v := z.1) (by simp))
  have hset : ∀ {α : Type} (f : ℤ × ℕ → α), ((L₁ ++ h' :: (L₂ ++ R)).map f).set L₁.length (f z)
      = (L₁ ++ z :: L₂ ++ R).map f := by
    intro α f
    simp
  rw [hset] at hflat
  obtain ⟨hs₁, hs₂, hs₁₂⟩ := pairwise_append.mp hL
  refine ⟨L₁ ++ z :: L₂, x', ?_, hflat, ?_, ?_⟩
  · simp only [sortedPermStep, hy, hyv, hidx, hrun, hx', hset, some_bind, Option.pure_def]
  · rw [append_assoc]
    exact Perm.append_left L₁ (perm_append_singleton z L₂).symm
  -- all before the place are at most the last of them
  have hle : ∀ u ∈ L₁, u.1 ≤ z.1 := by
    intro u hu
    have hne : L₁ ≠ [] := ne_nil_of_mem hu
    have hlast := hL₁ _ (getLast?_eq_getLast_of_ne_nil hne)
    rcases eq_or_ne u (L₁.getLast hne) with rfl | hune
    · exact hlast
    · rw [← dropLast_append_getLast hne] at hu hs₁
      rcases mem_append.mp hu with hu | hu
      · exact le_trans ((pairwise_append.mp hs₁).2.2 u hu _ (by simp)) hlast
      · exact absurd (mem_singleton.mp hu) hune
  refine pairwise_append.mpr ⟨hs₁, pairwise_cons.mpr ⟨?_, hs₂⟩, ?_⟩
  · intro u hu
    exact (hL₂ u hu).le
  · intro u hu v hv
    rcases mem_cons.mp hv with rfl | hv
    · exact hle u hu
    · exact hs₁₂ u hu v hv

theorem foldlM_sortedPerm (R : List (ℤ × ℕ)) : ∀ {x : IntTuple} {L : List (ℤ × ℕ)},
    Flat x ((L ++ R).map Prod.fst) → (L.Pairwise fun u v => u.1 ≤ v.1) →
    ∃ (L' : List (ℤ × ℕ)) (x' : IntTuple),
      (range' L.length R.length).foldlM sortedPermStep (x, (L ++ R).map Prod.snd)
        = some (x', L'.map Prod.snd) ∧ L'.Perm (L ++ R) ∧ L'.Pairwise fun u v => u.1 ≤ v.1 := by
  induction R with
  | nil =>
    intro x L hx hL
    exact ⟨L, x, by simp, by simp, hL⟩
  | cons z R ih =>
    intro x L hx hL
    obtain ⟨L₁, x₁, hstep, hx₁, hperm, hL₁⟩ := sortedPermStep_spec hx hL
    obtain ⟨L', x', hrun, hperm', hL'⟩ := ih hx₁ hL₁
    refine ⟨L', x', ?_, ?_, hL'⟩
    · rw [hperm.length_eq, length_append, length_singleton] at hrun
      rw [length_cons, range'_succ, foldlM_cons, hstep]
      exact hrun
    · refine hperm'.trans ?_
      rw [append_cons]
      exact Perm.append_right R hperm

variable {os : List ℤ}

/-- **The insertion sort**: the positions of the values in increasing order. -/
theorem sortedPerm_spec (hx : Flat x os) :
    ∃ zs : List (ℤ × ℕ), sortedPerm x = some (zs.map Prod.snd) ∧ zs.Perm os.zipIdx ∧
      zs.Pairwise fun u v => u.1 ≤ v.1 := by
  have hfst : os.zipIdx.map Prod.fst = os := zipIdx_map_fst 0 os
  have hsnd : os.zipIdx.map Prod.snd = range os.length := by
    rw [zipIdx_map_snd, range_eq_range']
  cases hos : os.zipIdx with
  | nil =>
    obtain rfl : os = [] := by simpa using hos
    exact ⟨[], by simp [sortedPerm, hx.len], Perm.refl _, Pairwise.nil⟩
  | cons z R =>
    rw [hos] at hfst hsnd
    have hlen : os.length = R.length + 1 := by rw [← hfst]; simp
    obtain ⟨zs, x', hrun, hperm, hzs⟩ := foldlM_sortedPerm R (L := [z])
      (show Flat x (([z] ++ R).map Prod.fst) by rwa [singleton_append, hfst])
      (pairwise_singleton _ _)
    refine ⟨zs, ?_, hperm, hzs⟩
    rw [singleton_append, hsnd, length_singleton] at hrun
    simp only [sortedPerm, hx.len, hlen, Nat.add_sub_cancel, some_bind]
    rw [hlen] at hrun
    rw [hrun]
    rfl

/-! ### Permutations of flat tuples -/

variable {ws : List ℤ} {perm : List ℕ}

theorem flatApplyPerm_spec (hx : Flat x ws) (hperm : perm.Perm (range ws.length)) :
    ∃ e, flatApplyPerm x perm = some e ∧ Exact e (node ((perm.map (ws.getD · 0)).map leaf)) := by
  have hlen : perm.length = ws.length := by simpa using hperm.length_eq
  simp only [flatApplyPerm, hx.len, some_bind]
  refine (exists_foldlM_range
    (fun i r => Exact r (node (((perm.take i).map (ws.getD · 0)).map leaf))) exact_empty
    fun i hi r hr => ?_).imp fun e he => ⟨he.1, ?_⟩
  · have hp : perm[i]? = some perm[i] := getElem?_eq_getElem (by omega)
    have hlt : perm[i] < ws.length := mem_range.mp (hperm.subset (getElem_mem (by omega)))
    obtain ⟨y, hy, -, hyd⟩ := hx.get (i := perm[i]) (v := ws.getD perm[i] 0) (by
      rw [getD_eq_getElem?_getD, getElem?_eq_getElem hlt]
      rfl)
    obtain ⟨r', hr', hd'⟩ := append_exact hr hyd
    refine ⟨r', by simp [hp, hy, hr'], ?_⟩
    rw [take_succ_eq_append_getElem (by omega), map_append, map_append]
    exact hd'
  · have hd := he.2
    rwa [← hlen, take_length] at hd

/-- Writing each integer to the position that the permutation gives for it. -/
theorem flatApplyInvperm_spec {st : List ℤ} (hx : Flat x vs)
    (hperm : perm.Perm (range vs.length)) (hlen : st.length = vs.length)
    (hst : ∀ (i j : ℕ) (v : ℤ), perm[i]? = some j → vs[i]? = some v → st[j]? = some v) :
    flatApplyInvperm x perm = some (ofInts st) := by
  have hplen : perm.length = vs.length := by simpa using hperm.length_eq
  simp only [flatApplyInvperm, hx.len, some_bind]
  -- the positions written so far hold what they have to
  refine (exists_foldlM_range (fun i r => ∃ cells : List (Option ℤ),
    r = ⟨some (vs.length : ℤ) :: cells⟩ ∧ cells.length = vs.length ∧
      ∀ j ∈ perm.take i, cells[j]? = some st[j]?)
    ⟨_, rfl, by simp [IntArray.init], by simp⟩ ?_).elim fun r hr => hr.1.trans ?_
  · rintro i hi r ⟨cells, rfl, hcells, hdone⟩
    have hp : perm[i]? = some perm[i] := getElem?_eq_getElem (by omega)
    have hlt : perm[i] < cells.length :=
      hcells ▸ mem_range.mp (hperm.subset (getElem_mem (by omega)))
    obtain ⟨y, hy, hyv, -⟩ := hx.get (getElem?_eq_getElem hi)
    have hval := hst i _ _ hp (getElem?_eq_getElem hi)
    refine ⟨⟨some (vs.length : ℤ) :: cells.set perm[i] (some vs[i])⟩, ?_, _, rfl,
      by rw [length_set, hcells], ?_⟩
    · have hset : IntArray.setitem (some (vs.length : ℤ) :: cells) (perm[i] + 1) vs[i]
          = some (some (vs.length : ℤ) :: cells.set perm[i] (some vs[i])) := by
        rw [IntArray.setitem_of_lt (by simpa using hlt)]
        rfl
      simp [hp, hy, hyv, replaceEntryInt, hset]
    · intro j hj
      rw [take_succ_eq_append_getElem (by omega)] at hj
      by_cases hji : j = perm[i]
      · rw [hji, getElem?_set_self hlt, hval]
      · rw [getElem?_set_ne (Ne.symm hji)]
        rcases mem_append.mp hj with hj | hj
        · exact hdone j hj
        · exact absurd (mem_singleton.mp hj) hji
  · obtain ⟨-, cells, rfl, hcells, hdone⟩ := hr
    have hall : cells = st.map some := by
      refine ext_getElem? fun j => ?_
      by_cases hj : j < vs.length
      · have hmem : j ∈ perm.take vs.length := by
          rw [← hplen, take_length]
          exact hperm.mem_iff.mpr (mem_range.mpr hj)
        rw [hdone j hmem, getElem?_map, getElem?_eq_getElem (by omega)]
        rfl
      · rw [getElem?_eq_none (by omega), getElem?_eq_none (by simp; omega)]
    rw [ofInts, ← hall, hlen]

/-! ### The strides of an order -/

/-- For each order the product of the shapes of smaller order. -/
def orderStrides (ws os : List ℤ) : List ℤ :=
  os.map fun o => (((ws.zip os).filter fun p => p.2 < o).map Prod.fst).prod

section Strides

variable {zs : List (ℤ × ℕ)}

theorem zip_eq_map_zipIdx (hlen : ws.length = os.length) :
    ws.zip os = os.zipIdx.map fun z => (ws.getD z.2 0, z.1) := by
  refine ext_getElem (by simp [hlen]) fun i hi hi' => ?_
  have hi : i < ws.length := by simp [length_zip] at hi; omega
  simp [hi]

/-- In a sorted list the smaller ones are those before. -/
theorem filter_eq_take (hlt : zs.Pairwise fun u v => u.1 < v.1)
    (hz : zs[i]? = some z) : (zs.filter fun u => u.1 < z.1) = zs.take i := by
  obtain ⟨hi, rfl⟩ := List.getElem_of_getElem? hz
  have hsplit : zs = zs.take i ++ zs[i] :: zs.drop (i + 1) := by
    rw [← drop_eq_getElem_cons hi, take_append_drop]
  rw [hsplit, pairwise_append, pairwise_cons] at hlt
  obtain ⟨-, ⟨hrest, -⟩, hbefore⟩ := hlt
  have hin : (zs.take i).filter (fun u => u.1 < zs[i].1) = zs.take i := by
    rw [filter_eq_self]
    intro u hu
    exact decide_eq_true (hbefore u hu _ mem_cons_self)
  have hout : (zs[i] :: zs.drop (i + 1)).filter (fun u => u.1 < zs[i].1) = [] := by
    rw [filter_eq_nil_iff]
    intro u hu
    rcases mem_cons.mp hu with rfl | hu
    · simp
    · have := hrest u hu
      simp only [decide_eq_true_eq]
      omega
  calc (zs.filter fun u => u.1 < zs[i].1)
      = (zs.take i ++ zs[i] :: zs.drop (i + 1)).filter fun u => u.1 < zs[i].1 := by rw [← hsplit]
    _ = zs.take i := by rw [filter_append, hin, hout, append_nil]

/-- Strides that follow the sorted order of the positions. -/
def Follows (st ws : List ℤ) (zs : List (ℤ × ℕ)) : Prop :=
  ∀ (i : ℕ) (z : ℤ × ℕ), zs[i]? = some z →
    st[z.2]? = some ((zs.map fun u => ws.getD u.2 0).take i).prod

/-- Modes with the product of the extents before them as strides. -/
theorem runs_of_take {ms : List Mode} {q : ℤ} (h : ∀ (i : ℕ) (m : Mode), ms[i]? = some m →
      m.2 = q * ((ms.map Prod.fst).take i).prod) : Runs q ms := by
  induction ms generalizing q with
  | nil => trivial
  | cons m ms ih =>
    refine ⟨fun _ => by simpa using h 0 m rfl, ih fun i m' hm' => ?_⟩
    have h' := h (i + 1) m' hm'
    rwa [map_cons, take_succ_cons, prod_cons, ← mul_assoc] at h'

/-- The modes in the order of their strides. -/
theorem Follows.runs (h : Follows st ws zs) :
    Runs 1 (zs.map fun z => (ws.getD z.2 0, st.getD z.2 0)) := by
  refine runs_of_take fun i m hm => ?_
  obtain ⟨z, hz, rfl⟩ := getElem?_map ▸ hm |> Option.map_eq_some_iff.mp
  change st.getD z.2 0 = _
  rw [map_map, one_mul, getD_eq_getElem?_getD, h i z hz]
  rfl

section Perm

variable (hperm : zs.Perm os.zipIdx)
include hperm

theorem lt_of_sorted (hle : zs.Pairwise fun u v => u.1 ≤ v.1) (hnodup : os.Nodup) :
    zs.Pairwise fun u v => u.1 < v.1 := by
  have hne : (zs.map Prod.fst).Nodup := by
    rw [(hperm.map Prod.fst).nodup_iff, zipIdx_map_fst]
    exact hnodup
  rw [Nodup, pairwise_map] at hne
  exact hle.imp₂ (fun u v h h' => lt_of_le_of_ne h h') hne

/-- The stride at a position is the product of what is sorted before it. -/
theorem getElem?_orderStrides (hlen : ws.length = os.length)
    (hlt : zs.Pairwise fun u v => u.1 < v.1) (hz : zs[i]? = some z) :
    (orderStrides ws os)[z.2]? = some ((zs.map fun u => ws.getD u.2 0).take i).prod := by
  have hmem : z ∈ os.zipIdx := hperm.subset (mem_of_getElem? hz)
  have ho : os[z.2]? = some z.1 := mem_zipIdx_iff_getElem?.mp hmem
  have hfilter : (ws.zip os).filter (fun p => p.2 < z.1)
      = (os.zipIdx.filter fun u => u.1 < z.1).map fun u => (ws.getD u.2 0, u.1) := by
    rw [zip_eq_map_zipIdx hlen, filter_map]
    rfl
  rw [orderStrides, getElem?_map, ho, Option.map_some, hfilter, map_map,
    ← map_take, ← filter_eq_take hlt hz]
  refine congrArg some (Perm.prod_eq ?_)
  exact ((hperm.filter _).map _).symm

theorem perm_range : (zs.map Prod.snd).Perm (range os.length) := by
  have h := hperm.map Prod.snd
  rwa [zipIdx_map_snd, ← range_eq_range'] at h

theorem exists_follows (ws : List ℤ) :
    ∃ st : List ℤ, st.length = os.length ∧ Follows st ws zs := by
  refine ⟨(range os.length).map fun j =>
    ((zs.map fun u => ws.getD u.2 0).take ((zs.map Prod.snd).idxOf j)).prod, by simp, ?_⟩
  intro i z hz
  obtain ⟨hi, rfl⟩ := List.getElem_of_getElem? hz
  have hrange := perm_range hperm
  have hnodup : (zs.map Prod.snd).Nodup := hrange.nodup_iff.mpr nodup_range
  have hlt : zs[i].2 < os.length := mem_range.mp (hrange.subset (mem_map_of_mem (getElem_mem hi)))
  have hidx : (zs.map Prod.snd).idxOf zs[i].2 = i := by
    have h := hnodup.idxOf_getElem i (by simpa using hi)
    rwa [getElem_map] at h
  rw [getElem?_map, getElem?_range hlt, Option.map_some, hidx]

/-- The strides are determined by the order. -/
theorem Follows.ext {st st' : List ℤ} (h : Follows st ws zs) (h' : Follows st' ws zs)
    (hlen : st.length = os.length) (hlen' : st'.length = os.length) : st = st' := by
  refine ext_getElem? fun j => ?_
  by_cases hj : j < os.length
  · have hmem : (os[j], j) ∈ zs := hperm.symm.subset (mem_zipIdx_iff_getElem?.mpr (by simp [hj]))
    obtain ⟨i, hi⟩ := mem_iff_getElem?.mp hmem
    rw [h i _ hi, h' i _ hi]
  · rw [getElem?_eq_none (by omega), getElem?_eq_none (by omega)]

theorem perm_zip (hws : ws.length = os.length) (hst : st.length = os.length) :
    (zs.map fun z => (ws.getD z.2 0, st.getD z.2 0)).Perm (ws.zip st) := by
  have h := (perm_range hperm).map fun j => (ws.getD j 0, st.getD j 0)
  rw [map_map] at h
  refine h.trans (Perm.of_eq ?_)
  refine ext_getElem (by simp [hws, hst]) fun i hi hi' => ?_
  have hi : i < os.length := by simpa using hi
  simp [hws, hst, hi]

theorem Follows.covers (h : Follows st ws zs) (hws : ws.length = os.length)
    (hst : st.length = os.length) (hpos : ∀ w ∈ ws, 0 < w) : Covers 1 (ws.zip st) := by
  have hzip := perm_zip hperm hws hst
  refine (covers_of_runs one_pos ?_ h.runs).perm hzip
  intro m hm
  exact hpos _ (of_mem_zip (hzip.subset hm)).1

end Perm

theorem prefixesAll_flat (vs : List ℤ) : prefixesAll (vs.map leaf) 1
    = ((range vs.length).map fun i => (vs.take i).prod).map leaf := by
  have hlen : (prefixesAll (vs.map leaf) 1).length = vs.length := by
    have h := congruent_node.mp (prefixes_node _ 1 ▸ congruent_prefixes (node (vs.map leaf)) 1)
    simpa using h.length_eq.symm
  refine ext_getElem? fun i => ?_
  by_cases hi : i < vs.length
  · rw [Layout.prefixesAll_leaves vs 1 hi]
    simp [hi]
  · rw [getElem?_eq_none (by omega), getElem?_eq_none (by simp; omega)]

/-- **The strides of a flat shape** in any order. -/
theorem flatCompactOrder_spec {o : IntTuple} (hx : Flat x ws) (ho : Flat o os)
    (hlen : ws.length = os.length) (hpos : ∀ w ∈ ws, 0 < w) :
    ∃ zs st, zs.Perm os.zipIdx ∧ (zs.Pairwise fun u v => u.1 ≤ v.1) ∧ st.length = os.length ∧
      Follows st ws zs ∧ (∀ v ∈ st, 0 < v) ∧ flatCompactOrder x o = some (ofInts st) := by
  obtain ⟨zs, hsort, hperm, hle⟩ := sortedPerm_spec ho
  obtain ⟨st, hst, hfollows⟩ := exists_follows hperm ws
  have hrange := perm_range hperm
  have hzlen : zs.length = os.length := by simpa using hperm.length_eq
  obtain ⟨e, he, hd⟩ := flatApplyPerm_spec hx (hlen ▸ hrange)
  rw [show (zs.map Prod.snd).map (ws.getD · 0) = zs.map fun u => ws.getD u.2 0 from
    map_map] at hd
  -- the products of the permuted shape
  have hus : ∀ u ∈ zs.map fun u => ws.getD u.2 0, 0 < u := by
    intro u hu
    obtain ⟨z, hz, rfl⟩ := mem_map.mp hu
    have hlt : z.2 < ws.length := hlen ▸ mem_range.mp (hrange.subset (mem_map_of_mem hz))
    rw [getD_eq_getElem _ _ hlt]
    exact hpos _ (getElem_mem hlt)
  obtain ⟨e', he', hd'⟩ := prefixProduct_spec hd (q := 1) (by
    intro v hv
    rw [leaves_node, flatMap_map] at hv
    exact hus v (by simpa using hv)) one_pos
  have hflat : Flat e' ((range zs.length).map fun i =>
      ((zs.map fun u => ws.getD u.2 0).take i).prod) := by
    refine ⟨_, _, hd', ?_⟩
    rw [prefixes_node, children_node, prefixesAll_flat, length_map]
  have hinv : flatApplyInvperm e' (zs.map Prod.snd) = some (ofInts st) := by
    refine flatApplyInvperm_spec hflat (by simpa [hzlen] using hrange) (by simp [hst, hzlen]) ?_
    intro i j v hj hv
    obtain ⟨z, hz, rfl⟩ := Option.map_eq_some_iff.mp (getElem?_map ▸ hj)
    obtain ⟨hi, -⟩ := List.getElem_of_getElem? hz
    rw [getElem?_map, getElem?_range hi, Option.map_some] at hv
    rw [hfollows i z hz, hv]
  refine ⟨zs, st, hperm, hle, hst, hfollows, ?_, ?_⟩
  · intro v hv
    obtain ⟨j, hj⟩ := mem_iff_getElem?.mp hv
    have hlt : j < os.length := hst ▸ (List.getElem_of_getElem? hj).1
    obtain ⟨z, hz, rfl⟩ := mem_map.mp (hrange.symm.subset (mem_range.mpr hlt))
    obtain ⟨i, hi⟩ := mem_iff_getElem?.mp hz
    rw [hfollows i z hi] at hj
    cases hj
    exact prod_pos fun u hu => hus u (mem_of_mem_take hu)
  · have he' : prefixProduct e 1 = some e' := he'
    simp only [flatCompactOrder, hsort, he, he', hinv, some_bind]

end Strides

end IntTuple

/-- A tuple whose integers `to_nest` puts back into their places. -/
def Nest.Restored : Nest → Prop
  | leaf _ => False
  | node ts => Renests (node ts)

instance : (t : Nest) → Decidable t.Restored
  | .leaf _ => inferInstanceAs (Decidable False)
  | .node ts => inferInstanceAs (Decidable (Nest.Renests (.node ts)))

namespace Layout

open Nest IntTuple

/-- A layout of the shape in which each leaf has the product of the shapes of smaller order as
its stride, and which is one to one onto the offsets below its size. -/
structure Ordered (r : Layout) (s o : Nest) : Prop where
  strides : ∃ k d, Denotes r.stride.store k d ∧ Nest.Congruent s d ∧
    d.leaves = orderStrides s.leaves o.leaves
  compact : Compact r s

section MakeOrdered

variable {S O : IntArray} {n m : ℕ} {s o : Nest}

/-- The strides that `compact_order` nests are those of the order. -/
theorem flatCompactOrder_eq (hS : Denotes S n s) (hO : Denotes O m o) (hc : s.Congruent o)
    (hpos : s.Pos) (hnodup : o.leaves.Nodup) :
    ∃ x y, (IntTuple.mk S).flatten = some x ∧ (IntTuple.mk O).flatten = some y ∧
      flatCompactOrder x y = some (ofInts (orderStrides s.leaves o.leaves)) ∧
      (∀ v ∈ orderStrides s.leaves o.leaves, 0 < v) ∧
      Covers 1 (s.leaves.zip (orderStrides s.leaves o.leaves)) := by
  have hlen : s.leaves.length = o.leaves.length := hc.leaves_length
  obtain ⟨x, hx, hxf⟩ := flatten_flat hS
  obtain ⟨y, hy, hyf⟩ := flatten_flat hO
  obtain ⟨zs, st, hperm, hle, hst, hfollows, hstpos, hrun⟩ :=
    flatCompactOrder_spec hxf hyf hlen hpos
  have hord : Follows (orderStrides s.leaves o.leaves) s.leaves zs := fun i z hz =>
    getElem?_orderStrides hperm hlen (lt_of_sorted hperm hle hnodup) hz
  have heq : st = orderStrides s.leaves o.leaves :=
    hfollows.ext hperm hord hst (by simp [orderStrides])
  subst heq
  exact ⟨x, y, hx, hy, hrun, hstpos, hfollows.covers hperm hlen hst hpos⟩

/-- The nested strides, and that there is nothing else that can go wrong. -/
theorem makeOrderedLayout_eq (hS : Denotes S n s) (hO : Denotes O m o)
    (hc : s.Congruent o) (hpos : s.Pos) (hnodup : o.leaves.Nodup) :
    ∃ z : Option IntTuple, makeOrderedLayout ⟨S⟩ ⟨O⟩ = z.bind (init ⟨S⟩) ∧ Option.Rel Exact z
        ((renestAll s.children (orderStrides s.leaves o.leaves)).map node) := by
  obtain ⟨x, y, hx, hy, hrun, hstpos, -⟩ := flatCompactOrder_eq hS hO hc hpos hnodup
  obtain ⟨k, f, hF, hf⟩ : Flat (ofInts (orderStrides s.leaves o.leaves)) _ :=
    flat_ofInts fun v hv => le_trans minimumValue_neg.le (hstpos v hv).le
  refine ⟨_, ?_, toNest_spec hS (le_refl S.length) hF hf⟩
  simp only [makeOrderedLayout, compactOrder, hx, hy, hrun, some_bind]
  rfl

end MakeOrdered

end Layout
