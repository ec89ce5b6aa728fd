/-
What modes leave out.

Modes in the order of their strides, each stride a multiple of where the mode before it ends,
leave gaps.  The modes of the gaps (`gaps`), up to a given total, fill an interval together
with the modes themselves.

* `Covers.bijOn_add` — two lists of modes that cover an interval together add up to each of
  its numbers exactly once;
* `covers_gaps` — modes in any order cover an interval with their gaps;
* `le_size_gaps` — an interval of at least the given total;
* `pairwise_gaps`, `pairwise_coalesced` — the strides of the gaps increase, and merging keeps
  that.
-/
import MojoMac.ContiguousRuns

open List

namespace MixedRadix

variable {ms ns : List Mode} {m : Mode} {q total : ℤ}

/-! ### Covering with two lists -/

theorem InRange.exists_append {cs : List ℤ} (h : InRange (ms ++ ns) cs) :
    ∃ as bs, cs = as ++ bs ∧ InRange ms as ∧ InRange ns bs := by
  induction ms generalizing cs with
  | nil => exact ⟨[], cs, rfl, Forall₂.nil, h⟩
  | cons m ms ih =>
    obtain ⟨c, cs, rfl, hc, hcs⟩ := h.exists_cons
    obtain ⟨as, bs, rfl, has, hbs⟩ := ih hcs
    exact ⟨c :: as, bs, rfl, Forall₂.cons hc has, hbs⟩

theorem Covers.bijOn_add (hcov : Covers 1 (ms ++ ns)) (h : Positive ms) (h' : Positive ns) :
    Set.BijOn (fun p : ℤ × ℤ => eval ms p.1 + eval ns p.2)
      (Set.Ico 0 (size ms) ×ˢ Set.Ico 0 (size ns)) (Set.Ico 0 (size ms * size ns)) := by
  have hsplit : ∀ i j, eval ms i + eval ns j = value (ms ++ ns) (digits ms i ++ digits ns j) := by
    intro i j
    rw [value_append (inRange_digits h i), eval_eq_value, eval_eq_value]
  have hrange : ∀ i j, InRange (ms ++ ns) (digits ms i ++ digits ns j) := fun i j =>
    rel_append (inRange_digits h i) (inRange_digits h' j)
  refine ⟨?_, ?_, ?_⟩
  · rintro ⟨i, j⟩ -
    obtain ⟨-, h0, hlt⟩ := hcov.inside _ (hrange i j)
    rw [← hsplit] at h0 hlt
    rw [one_mul, size_append] at hlt
    exact ⟨h0, hlt⟩
  · rintro ⟨i, j⟩ ⟨⟨hi0, hi⟩, hj0, hj⟩ ⟨i', j'⟩ ⟨⟨hi0', hi'⟩, hj0', hj'⟩ heq
    have hval : value (ms ++ ns) (digits ms i ++ digits ns j)
        = value (ms ++ ns) (digits ms i' ++ digits ns j') := by
      rw [← hsplit, ← hsplit]
      exact heq
    obtain ⟨hd, hd'⟩ := append_inj (hcov.inj _ _ (hrange i j) (hrange i' j') hval)
      ((inRange_digits h i).length_eq.symm.trans (inRange_digits h i').length_eq)
    exact Prod.ext (digits_inj h hi0 hi hi0' hi' hd) (digits_inj h' hj0 hj hj0' hj' hd')
  · rintro v ⟨h0, hv⟩
    rw [← size_append] at hv
    obtain ⟨cs, hcs, hval⟩ := hcov.onto v h0 hv
    obtain ⟨as, bs, rfl, has, hbs⟩ := hcs.exists_append
    refine ⟨(index ms as, index ns bs), ⟨⟨index_nonneg has, index_lt has⟩, index_nonneg hbs,
      index_lt hbs⟩, ?_⟩
    rw [value_append has, one_mul] at hval
    simp only [eval_index has, eval_index hbs, hval]

/-! ### Gaps -/

/-- The gaps that modes in the order of their strides leave from `q` on; the last one goes up
to `total`. -/
def gaps (total : ℤ) : ℤ → List Mode → List Mode
  | q, [] => [(-(-total / q), q)]
  | q, m :: ms => (m.2 / q, q) :: gaps total (m.1 * m.2) ms

/-- Each stride is a multiple of where the mode before it ends, from `q` on. -/
def Nested : ℤ → List Mode → Prop
  | _, [] => True
  | q, m :: ms => q ∣ m.2 ∧ Nested (m.1 * m.2) ms

theorem nested_of_isChain (hq : ∀ m ∈ ms.head?, q ∣ m.2)
    (h : ms.IsChain fun m n => m.1 * m.2 ∣ n.2) : Nested q ms := by
  induction ms generalizing q with
  | nil => trivial
  | cons m ms ih =>
    refine ⟨hq m rfl, ih ?_ h.tail⟩
    rw [isChain_cons] at h
    exact h.1

/-- Extents and strides that a mode with a gap before it can have. -/
def Spread (ms : List Mode) : Prop := ∀ m ∈ ms, 1 < m.1 ∧ 0 < m.2

theorem Spread.head (h : Spread (m :: ms)) : 1 < m.1 ∧ 0 < m.2 := h m (by simp)

theorem Spread.tail (h : Spread (m :: ms)) : Spread ms := fun n hn => h n (by simp [hn])

theorem Spread.end_pos (h : Spread (m :: ms)) : 0 < m.1 * m.2 :=
  mul_pos (zero_lt_one.trans h.head.1) h.head.2

/-- The modes with an extent above one and a positive stride, in the order of their strides:
each stride is a multiple of where the mode before it ends. -/
def Chained (ms : List Mode) : Prop :=
  ((ms.filter fun m => 1 < m.1 ∧ 0 < m.2).insertionSort fun m n => m.2 ≤ n.2).IsChain
    fun m n => m.1 * m.2 ∣ n.2

instance (ms : List Mode) : Decidable (Chained ms) :=
  inferInstanceAs (Decidable (List.IsChain _ _))

/-- Where all modes other than those of extent one are such, their order is strict. -/
theorem Chained.exists_perm (h : Chained ms) (hspread : Spread (ms.filter fun m => m.1 ≠ 1)) :
    ∃ qs : List Mode, qs.Perm (ms.filter fun m => m.1 ≠ 1) ∧ (qs.Pairwise fun m n => m.2 < n.2) ∧
      qs.IsChain fun m n => m.1 * m.2 ∣ n.2 := by
  have hfilter : (ms.filter fun m => 1 < m.1 ∧ 0 < m.2) = ms.filter fun m => m.1 ≠ 1 := by
    refine filter_congr fun m hm => ?_
    by_cases h1 : m.1 = 1
    · simp [h1]
    · have hm' := hspread m (mem_filter.mpr ⟨hm, by simpa using h1⟩)
      simp [h1, hm'.1, hm'.2]
  rw [Chained, hfilter] at h
  have hperm := perm_insertionSort (fun m n : Mode => m.2 ≤ n.2) (ms.filter fun m => m.1 ≠ 1)
  refine ⟨_, hperm, ?_, h⟩
  rw [← pairwise_map (f := Prod.snd), ← isChain_iff_pairwise, isChain_map]
  refine h.imp_of_mem_imp fun m n hm hn hdvd => ?_
  obtain ⟨h1, h2⟩ := hspread m (hperm.mem_iff.mp hm)
  have hle := Int.le_of_dvd (hspread n (hperm.mem_iff.mp hn)).2 hdvd
  have hlt : 1 * m.2 < m.1 * m.2 := mul_lt_mul_of_pos_right h1 h2
  linarith

theorem ceil_pos (hq : 0 < q) (ht : 0 < total) : 0 < -(-total / q) := by
  have h : -total / q < 0 := Int.ediv_neg_of_neg_of_pos (by omega) hq
  omega

theorem positive_gaps (hq : 0 < q) (ht : 0 < total) (h : Spread ms) (hn : Nested q ms) :
    Positive (gaps total q ms) := by
  induction ms generalizing q with
  | nil =>
    intro n hn
    rw [mem_singleton.mp hn]
    exact ceil_pos hq ht
  | cons m ms ih =>
    intro n hmem
    rcases mem_cons.mp hmem with rfl | hmem
    · exact Int.ediv_pos_of_pos_of_dvd h.head.2 hq.le hn.1
    · exact ih h.end_pos h.tail hn.2 n hmem

/-- Modes and their gaps, put in order, run through the products of their extents. -/
theorem exists_runs_gaps (total : ℤ) (hn : Nested q ms) :
    ∃ ns, (ms ++ gaps total q ms).Perm ns ∧ Runs q ns := by
  induction ms generalizing q with
  | nil => exact ⟨_, Perm.refl _, fun _ => rfl, trivial⟩
  | cons m ms ih =>
    obtain ⟨ns, hperm, hruns⟩ := ih hn.2
    refine ⟨(m.2 / q, q) :: m :: ns, ?_, fun _ => rfl, ?_, ?_⟩
    · exact perm_middle.trans ((hperm.cons m).cons _)
    · exact fun _ => (Int.mul_ediv_cancel' hn.1).symm
    · rw [Int.mul_ediv_cancel' hn.1, mul_comm]
      exact hruns

theorem runs_units_append (h : ∀ m ∈ ms, m.1 = 1) (hruns : Runs q ns) : Runs q (ms ++ ns) := by
  induction ms with
  | nil => exact hruns
  | cons m ms ih =>
    have hm := h m (by simp)
    refine ⟨fun h1 => absurd hm h1, ?_⟩
    rw [hm, mul_one]
    exact ih fun n hn => h n (by simp [hn])

/-- Modes in any order, with others of extent one among them, cover an interval together with
the gaps. -/
theorem covers_gaps {ss : List Mode} (hperm : (ms.filter fun m => m.1 ≠ 1).Perm ss)
    (hpos : Positive ms) (ht : 0 < total) (h : Spread ss) (hn : Nested 1 ss) :
    Covers 1 (ms ++ gaps total 1 ss) := by
  obtain ⟨ns, hns, hruns⟩ := exists_runs_gaps total hn
  have hunits : ∀ m ∈ ms.filter fun m => ! decide (m.1 ≠ 1), m.1 = 1 := by
    intro m hm
    simpa using (mem_filter.mp hm).2
  have hall : (ms ++ gaps total 1 ss).Perm ((ms.filter fun m => ! decide (m.1 ≠ 1)) ++ ns) := by
    have hsplit := (filter_append_perm (fun m : Mode => decide (m.1 ≠ 1)) ms).symm
    refine ((hsplit.trans perm_append_comm).append_right _).trans ?_
    rw [append_assoc]
    exact ((hperm.append_right _).trans hns).append_left _
  have hcov := covers_of_runs one_pos
    (fun m hm => (hpos.append (positive_gaps one_pos ht h hn)) m (hall.mem_iff.mpr hm))
    (runs_units_append hunits hruns)
  exact hcov.perm hall.symm

theorem le_mul_ceil (hq : 0 < q) (total : ℤ) : total ≤ q * -(-total / q) := by
  have h := Int.mul_ediv_self_le (x := -total) (k := q) hq.ne'
  linarith

/-- Modes and gaps reach the total. -/
theorem le_size_gaps (total : ℤ) (hq : 0 < q) (h : Spread ms) (hn : Nested q ms) :
    total ≤ q * (size ms * size (gaps total q ms)) := by
  induction ms generalizing q with
  | nil => simpa [gaps, size] using le_mul_ceil hq total
  | cons m ms ih =>
    calc total ≤ m.1 * m.2 * (size ms * size (gaps total (m.1 * m.2) ms)) := ih h.end_pos h.tail hn.2
      _ = m.1 * (q * (m.2 / q)) * (size ms * size (gaps total (m.1 * m.2) ms)) := by
        rw [Int.mul_ediv_cancel' hn.1]
      _ = q * (size (m :: ms) * size (gaps total q (m :: ms))) := by
        simp only [gaps, size]
        ring

/-! ### Strides -/

theorem le_stride_gaps (total : ℤ) (h : Spread ms) (hn : Nested q ms) :
    ∀ g ∈ gaps total q ms, q ≤ g.2 := by
  induction ms generalizing q with
  | nil =>
    intro g hg
    rw [mem_singleton.mp hg]
  | cons m ms ih =>
    intro g hg
    rcases mem_cons.mp hg with rfl | hg
    · exact le_rfl
    · have hle : q ≤ m.2 := Int.le_of_dvd h.head.2 hn.1
      have hend : 1 * m.2 ≤ m.1 * m.2 := mul_le_mul_of_nonneg_right h.head.1.le h.head.2.le
      have hrest := ih h.tail hn.2 g hg
      linarith

theorem pairwise_gaps (total : ℤ) (hq : 0 < q) (h : Spread ms) (hn : Nested q ms) :
    (gaps total q ms).Pairwise fun m n => m.2 < n.2 := by
  induction ms generalizing q with
  | nil => exact pairwise_singleton _ _
  | cons m ms ih =>
    refine pairwise_cons.mpr ⟨fun g hg => ?_, ih h.end_pos h.tail hn.2⟩
    have hle : q ≤ m.2 := Int.le_of_dvd h.head.2 hn.1
    have hend : 1 * m.2 < m.1 * m.2 := mul_lt_mul_of_pos_right h.head.1 h.head.2
    have hrest := le_stride_gaps total h.tail hn.2 g hg
    show q < g.2
    linarith

/-- The strides of runs are those of their first modes. -/
theorem sublist_map_merged {gs : List (List Mode)} (h : ∀ g ∈ gs, g ≠ []) :
    ((gs.map merged).map Prod.snd).Sublist (gs.flatten.map Prod.snd) := by
  induction gs with
  | nil => exact Sublist.slnil
  | cons g gs ih =>
    obtain ⟨m, g, rfl⟩ := exists_cons_of_ne_nil (h g (by simp))
    have hrest := (ih fun g' hg' => h g' (by simp [hg'])).trans
      (sublist_append_right (g.map Prod.snd) _)
    simpa [merged] using hrest.cons_cons m.2

theorem pairwise_coalesced (h : ms.Pairwise fun m n => m.2 < n.2) :
    (coalesced ms).Pairwise fun m n => m.2 < n.2 := by
  rw [coalesced, mergedAll]
  split
  · exact pairwise_singleton _ _
  · have hsub := sublist_map_merged fun g (hg : g ∈ runs ms) => runs_ne_nil hg
    rw [flatten_runs] at hsub
    have hsub' := hsub.trans (filter_sublist.map Prod.snd)
    exact pairwise_map.mp ((pairwise_map.mpr h).sublist hsub')

end MixedRadix
