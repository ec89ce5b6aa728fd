/-
Inverting a list of modes.

Modes are picked by their strides: first one with stride one, then one whose stride is the
extent of the first, and so on.  A number is written with the extents of the picked modes as
radices, and each digit is put back into the place of its mode.

* `exists_place` — digits put into distinct places add up, in the index and in the value;
* `eval_inverse` — the modes evaluate the index found for a number to that number;
* `size_inverse` — modes that cover an interval are all picked.
-/
import MojoMac.ContiguousRuns

open List

namespace MixedRadix

variable {ms ns : List Mode} {m : Mode}

/-! ### Digits in their places -/

variable {cs : List ℤ} {j : ℕ}

theorem index_set (hlen : cs.length = ms.length) (hzero : cs[j]? = some 0)
    (d : ℤ) : index ms (cs.set j d) = index ms cs + d * size (ms.take j) := by
  induction ms generalizing cs j with
  | nil =>
    obtain rfl := length_eq_zero_iff.mp hlen
    simp at hzero
  | cons m ms ih =>
    cases cs with
    | nil => simp at hlen
    | cons c cs =>
      cases j with
      | zero =>
        obtain rfl : c = 0 := by simpa using hzero
        simp [index, size]
        ring
      | succ j =>
        have hrest := ih (by simpa using hlen) (show cs[j]? = some 0 by simpa using hzero)
        simp only [set_cons_succ, index, hrest, take_succ_cons, size]
        ring

theorem value_set (hlen : cs.length = ms.length) (hzero : cs[j]? = some 0)
    (hm : ms[j]? = some m) (d : ℤ) : value ms (cs.set j d) = value ms cs + d * m.2 := by
  induction ms generalizing cs j with
  | nil => simp at hm
  | cons n ms ih =>
    cases cs with
    | nil => simp at hlen
    | cons c cs =>
      cases j with
      | zero =>
        obtain rfl : c = 0 := by simpa using hzero
        obtain rfl : n = m := by simpa using hm
        simp [value]
        ring
      | succ j =>
        have hrest := ih (by simpa using hlen) (show cs[j]? = some 0 by simpa using hzero)
          (by simpa using hm)
        simp only [set_cons_succ, value, hrest]
        ring

theorem inRange_set {d : ℤ} (h : InRange ms cs) (hm : ms[j]? = some m)
    (hd : 0 ≤ d ∧ d < m.1) : InRange ms (cs.set j d) := by
  induction h generalizing j with
  | nil => simp at hm
  | cons hc hcs ih =>
    cases j with
    | zero =>
      obtain rfl : _ = m := by simpa using hm
      exact Forall₂.cons hd hcs
    | succ j => exact Forall₂.cons hc (ih (by simpa using hm))

theorem index_zeros (ms : List Mode) : index ms (List.replicate ms.length 0) = 0 := by
  induction ms with
  | nil => rfl
  | cons m ms ih => simp [replicate_succ, index, ih]

/-- The modes at the given places. -/
def pickAt (ms : List Mode) (js : List ℕ) : List Mode :=
  js.map fun j => ms.getD j (1, 0)

/-- The same extents, with the weight that their digits have in an index. -/
def placeAt (ms : List Mode) (js : List ℕ) : List Mode :=
  js.map fun j => ((ms.getD j (1, 0)).1, size (ms.take j))

theorem map_fst_placeAt (ms : List Mode) (js : List ℕ) :
    (placeAt ms js).map Prod.fst = (pickAt ms js).map Prod.fst := by
  simp [placeAt, pickAt]

variable {js : List ℕ}

/-- Digits for distinct places are those of one index. -/
theorem exists_place (hpos : Positive ms) (hnodup : js.Nodup)
    (hlt : ∀ j ∈ js, j < ms.length) {ds : List ℤ} (hds : InRange (pickAt ms js) ds) :
    ∃ cs, InRange ms cs ∧ index ms cs = value (placeAt ms js) ds ∧
      value ms cs = value (pickAt ms js) ds ∧ ∀ j < ms.length, j ∉ js → cs[j]? = some 0 := by
  induction js generalizing ds with
  | nil =>
    refine ⟨replicate ms.length 0, inRange_zeros hpos, ?_, value_zeros ms, ?_⟩
    · rw [index_zeros]
      rfl
    · intro j hj _
      simp [hj]
  | cons j js ih =>
    obtain ⟨d, ds, rfl, hd, hds⟩ := InRange.exists_cons hds
    obtain ⟨hnotin, hnodup⟩ := nodup_cons.mp hnodup
    obtain ⟨cs, hcs, hindex, hvalue, hzero⟩ := ih hnodup (fun k hk => hlt k (by simp [hk])) hds
    have hj := hlt j (by simp)
    have hm : ms[j]? = some (ms.getD j (1, 0)) := by simp [hj]
    have hlen : cs.length = ms.length := hcs.length_eq.symm
    refine ⟨cs.set j d, inRange_set hcs hm hd, ?_, ?_, ?_⟩
    · rw [index_set hlen (hzero j hj hnotin), hindex]
      simp [placeAt, value, add_comm]
    · rw [value_set hlen (hzero j hj hnotin) hm, hvalue]
      simp [pickAt, value, add_comm]
    · intro k hk hnot
      rw [mem_cons, not_or] at hnot
      rw [getElem?_set_ne (Ne.symm hnot.1)]
      exact hzero k hk hnot.2

/-! ### Picking modes -/

/-- The places of the modes that are picked in at most `k` turns, from the stride `q` on. -/
def picks (ms : List Mode) : ℕ → ℤ → List ℕ
  | 0, _ => []
  | k + 1, q =>
    match ms.findIdx? fun m => m.2 == q with
    | none => picks ms k q
    | some j => j :: picks ms k (q * (ms.getD j (1, 0)).1)

attribute [local simp] picks

/-- Modes that can be picked have an extent above one. -/
def Wide (ms : List Mode) : Prop := ∀ m ∈ ms, 0 < m.1 ∧ (0 < m.2 → 1 < m.1)

variable {q : ℤ}

theorem findIdx?_stride (h : ms.findIdx? (fun m => m.2 == q) = some j) :
    j < ms.length ∧ (ms.getD j (1, 0)).2 = q ∧ ms.getD j (1, 0) ∈ ms := by
  obtain ⟨hlt, hq, -⟩ := findIdx?_eq_some_iff_getElem.mp h
  refine ⟨hlt, ?_, ?_⟩
  · simpa [hlt] using hq
  · simp [hlt]

/-- What is picked from `q` on: strides not below it, each place once, running through the
products of the extents. -/
theorem picks_spec (hw : Wide ms) (k : ℕ) (hq : 0 < q) :
    (∀ j ∈ picks ms k q, j < ms.length ∧ q ≤ (ms.getD j (1, 0)).2) ∧ (picks ms k q).Nodup ∧
      Runs q (pickAt ms (picks ms k q)) := by
  induction k generalizing q with
  | zero => exact ⟨by simp, nodup_nil, trivial⟩
  | succ k ih =>
    rw [picks]
    split
    · exact ih hq
    rename_i j hj
    obtain ⟨hlt, hstride, hmem⟩ := findIdx?_stride hj
    have hext : 1 < (ms.getD j (1, 0)).1 := (hw _ hmem).2 (by omega)
    have hnext : q < q * (ms.getD j (1, 0)).1 := lt_mul_of_one_lt_right hq hext
    obtain ⟨hle, hnodup, hruns⟩ := ih (hq.trans hnext)
    refine ⟨?_, nodup_cons.mpr ⟨?_, hnodup⟩, fun _ => hstride, hruns⟩
    · intro i hi
      rcases mem_cons.mp hi with rfl | hi
      · exact ⟨hlt, hstride.ge⟩
      · exact ⟨(hle i hi).1, hnext.le.trans (hle i hi).2⟩
    · intro hmem'
      have := (hle j hmem').2
      omega

/-! ### The inverse -/

/-- The modes of the inverse. -/
def inverse (ms : List Mode) : List Mode :=
  placeAt ms (picks ms ms.length 1)

theorem positive_pickAt (hw : Wide ms) (h : ∀ j ∈ js, j < ms.length) : Positive (pickAt ms js) := by
  intro m hm
  obtain ⟨j, hj, rfl⟩ := mem_map.mp hm
  have hlt := h j hj
  refine (hw _ ?_).1
  simp [hlt]

theorem positive_inverse (hw : Wide ms) : Positive (inverse ms) := by
  obtain ⟨hle, -, -⟩ := picks_spec hw ms.length one_pos
  have hpick := positive_pickAt hw fun j hj => (hle j hj).1
  intro m hm
  obtain ⟨j, hj, rfl⟩ := mem_map.mp hm
  exact hpick (ms.getD j (1, 0)) (mem_map.mpr ⟨j, hj, rfl⟩)

/-- **The inverse finds an index for each number below its size.** -/
theorem eval_inverse (hw : Wide ms) {i : ℤ} (h0 : 0 ≤ i) (hi : i < size (inverse ms)) :
    0 ≤ eval (inverse ms) i ∧ eval (inverse ms) i < size ms ∧ eval ms (eval (inverse ms) i) = i := by
  obtain ⟨hle, hnodup, hruns⟩ := picks_spec hw ms.length one_pos
  have hlt : ∀ j ∈ picks ms ms.length 1, j < ms.length := fun j hj => (hle j hj).1
  have hfst := map_fst_placeAt ms (picks ms ms.length 1)
  have hpos : Positive ms := fun m hm => (hw m hm).1
  -- the digits of the number, for the picked modes
  have hrange : InRange (pickAt ms (picks ms ms.length 1)) (digits (inverse ms) i) := by
    have h := inRange_digits (positive_inverse hw) i
    rw [InRange, ← forall₂_map_left_iff (f := Prod.fst) (R := fun s c => 0 ≤ c ∧ c < s)] at h ⊢
    rwa [inverse, hfst] at h
  obtain ⟨cs, hcs, hindex, hvalue, -⟩ := exists_place hpos hnodup hlt hrange
  have heval : eval (inverse ms) i = index ms cs := by
    rw [eval_eq_value, hindex]
    rfl
  refine ⟨heval ▸ index_nonneg hcs, heval ▸ index_lt hcs, ?_⟩
  rw [heval, eval_index hcs, hvalue, hruns.value_eq hrange, one_mul, ← index_congr hfst]
  exact index_digits (positive_inverse hw) h0 hi

/-! ### Modes that cover an interval -/

theorem Covers.eval_inj (hcov : Covers 1 ms) (h : Positive ms) {i j : ℤ} (hi0 : 0 ≤ i)
    (hi : i < size ms) (hj0 : 0 ≤ j) (hj : j < size ms) (heq : eval ms i = eval ms j) : i = j := by
  rw [eval_eq_value, eval_eq_value] at heq
  exact digits_inj h hi0 hi hj0 hj (hcov.inj _ _ (inRange_digits h i) (inRange_digits h j) heq)

/-- Covering depends on the values at indices only. -/
theorem Covers.congr (hcov : Covers 1 ms) (hms : Positive ms) (hns : Positive ns)
    (hsize : size ms = size ns) (heval : ∀ i, eval ms i = eval ns i) : Covers 1 ns where
  inside := by
    intro cs hcs
    have h := hcov.inside _ (inRange_digits hms (index ns cs))
    rwa [← eval_eq_value, heval, eval_index hcs, hsize] at h
  onto := by
    intro v h0 hv
    obtain ⟨cs, hcs, hval⟩ := hcov.onto v h0 (by rwa [hsize])
    refine ⟨digits ns (index ms cs), inRange_digits hns _, ?_⟩
    rw [← eval_eq_value, ← heval, eval_index hcs, hval]
  inj := by
    intro cs cs' hcs hcs' heq
    rw [← eval_index hcs, ← eval_index hcs', ← heval, ← heval] at heq
    have hindex := hcov.eval_inj hms (index_nonneg hcs) (hsize ▸ index_lt hcs)
      (index_nonneg hcs') (hsize ▸ index_lt hcs') heq
    rw [← digits_index hcs, ← digits_index hcs', hindex]

/-- Along a run of wide modes strides determine modes. -/
theorem Runs.stride_lt (hruns : Runs q ns) (hq : 0 < q) (hone : ∀ n ∈ ns, 1 < n.1) :
    ns.Pairwise (fun m n => m.2 < n.2) ∧ ∀ n ∈ ns, q ≤ n.2 := by
  induction ns generalizing q with
  | nil => exact ⟨Pairwise.nil, by simp⟩
  | cons n ns ih =>
    have h1 := hone n (by simp)
    have hn : n.2 = q := hruns.1 (by omega)
    have hnext : q < q * n.1 := lt_mul_of_one_lt_right hq h1
    obtain ⟨hpair, hle⟩ := ih hruns.2 (hq.trans hnext) fun k hk => hone k (by simp [hk])
    refine ⟨pairwise_cons.mpr ⟨fun k hk => ?_, hpair⟩, fun k hk => ?_⟩
    · have := hle k hk
      omega
    · rcases mem_cons.mp hk with rfl | hk
      · exact hn.ge
      · exact hnext.le.trans (hle k hk)

/-- The picks follow a run through the modes. -/
theorem pickAt_picks (hruns : Runs q ns) (hone : ∀ n ∈ ns, 1 < n.1)
    (hsub : ∀ n ∈ ns, n ∈ ms) (huniq : ∀ m ∈ ms, ∀ n ∈ ms, m.2 = n.2 → m = n) :
    pickAt ms (picks ms ns.length q) = ns := by
  induction ns generalizing q with
  | nil => rfl
  | cons n ns ih =>
    have h1 := hone n (by simp)
    have hn : n.2 = q := hruns.1 (by omega)
    have hrest := ih hruns.2 (fun k hk => hone k (by simp [hk])) fun k hk => hsub k (by simp [hk])
    rw [length_cons, picks]
    cases hfind : ms.findIdx? fun m => m.2 == q with
    | none =>
      have := findIdx?_eq_none_iff.mp hfind n (hsub n (by simp))
      simp [hn] at this
    | some j =>
      obtain ⟨-, hstride, hmem⟩ := findIdx?_stride hfind
      have hj : ms.getD j (1, 0) = n := huniq _ hmem _ (hsub n (by simp)) (by rw [hstride, hn])
      simp only [pickAt, map_cons, hj] at hrest ⊢
      rw [hrest]

theorem size_inverse (hcov : Covers 1 ms) (hone : ∀ m ∈ ms, 1 < m.1) :
    size (inverse ms) = size ms := by
  have hpos : Positive ms := fun m hm => by
    have := hone m hm
    omega
  obtain ⟨ns, hperm, hruns⟩ := hcov.exists_runs one_pos hpos
  have hone' : ∀ n ∈ ns, 1 < n.1 := fun n hn => hone n (hperm.mem_iff.mpr hn)
  obtain ⟨hpair, -⟩ := hruns.stride_lt one_pos hone'
  have hnodup : (ns.map Prod.snd).Nodup := pairwise_map.mpr (hpair.imp ne_of_lt)
  have huniq : ∀ m ∈ ms, ∀ n ∈ ms, m.2 = n.2 → m = n := by
    intro m hm n hn heq
    exact inj_on_of_nodup_map hnodup (hperm.mem_iff.mp hm) (hperm.mem_iff.mp hn) heq
  have hpicks := pickAt_picks hruns hone' (fun n hn => hperm.mem_iff.mpr hn) huniq
  rw [← hperm.length_eq] at hpicks
  rw [inverse, size_eq_prod, map_fst_placeAt, ← size_eq_prod, hpicks, size_perm hperm]

end MixedRadix
