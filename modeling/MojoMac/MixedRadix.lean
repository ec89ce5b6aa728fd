/-
Mixed-radix numerals with strides.

A mode is an extent with a stride.  An index `i` below the product of the extents of a
list of modes has one digit for each mode, the first mode varying fastest, and `eval`
is the sum of the digits, each times its stride.

* `eval_append`, `eval_merge` — lists of modes are evaluated part by part, and two
  neighbours whose strides continue each other are one mode;
* `eval_add_mul` — a stride that the extents can be split at separates an index into
  two parts that do not carry;
* `value_digits`, `digits_index` — digits and indices correspond;
* `Covers.perm`, `covers_of_runs` — whether every number below the product of the
  extents has exactly one numeral does not depend on the order of the modes, and it
  holds when each stride is the product of the extents before it;
* `Covers.digit` — and then each digit is got by dividing by its stride and reducing by
  its extent, whatever the order.
-/
import Mathlib

open List

namespace MixedRadix

/-- An extent and a stride. -/
abbrev Mode := ℤ × ℤ

def Positive (ms : List Mode) : Prop := ∀ m ∈ ms, 0 < m.1

def size : List Mode → ℤ
  | [] => 1
  | m :: ms => m.1 * size ms

/-- The value at an index: each digit of the index times its stride. -/
def eval : List Mode → ℤ → ℤ
  | [], _ => 0
  | m :: ms, i => i % m.1 * m.2 + eval ms (i / m.1)

attribute [local simp] size eval

variable {ms ns : List Mode} {m : Mode}

theorem Positive.head (h : Positive (m :: ms)) : 0 < m.1 := h m (by simp)

theorem Positive.tail (h : Positive (m :: ms)) : Positive ms := fun n hn => h n (by simp [hn])

theorem Positive.append (h : Positive ms) (h' : Positive ns) : Positive (ms ++ ns) := by
  intro n hn
  rcases mem_append.mp hn with hn | hn
  · exact h n hn
  · exact h' n hn

theorem Positive.left (h : Positive (ms ++ ns)) : Positive ms :=
  fun n hn => h n (mem_append_left _ hn)

theorem size_eq_prod (ms : List Mode) : size ms = (ms.map Prod.fst).prod := by
  induction ms with
  | nil => rfl
  | cons m ms ih => simp [ih]

theorem size_pos (h : Positive ms) : 0 < size ms := by
  induction ms with
  | nil => exact one_pos
  | cons m ms ih => exact mul_pos h.head (ih h.tail)

theorem size_append (ms ns : List Mode) : size (ms ++ ns) = size ms * size ns := by
  simp [size_eq_prod]

theorem size_perm (h : ms.Perm ns) : size ms = size ns := by
  rw [size_eq_prod, size_eq_prod, (h.map _).prod_eq]

/-! ### Evaluation -/

theorem eval_zero (ms : List Mode) : eval ms 0 = 0 := by
  induction ms with
  | nil => rfl
  | cons m ms ih => simp [ih]

theorem eval_append (h : Positive ms) (ns : List Mode) (i : ℤ) :
    eval (ms ++ ns) i = eval ms i + eval ns (i / size ms) := by
  induction ms generalizing i with
  | nil => simp
  | cons m ms ih =>
    have hdiv : i / (m.1 * size ms) = i / m.1 / size ms := (Int.ediv_ediv_of_nonneg h.head.le).symm
    simp only [cons_append, eval, size, ih h.tail, hdiv, add_assoc]

/-- A remainder by a product has the remainder by the first factor as its low digit. -/
theorem emod_mul {s : ℤ} (hs : 0 < s) (t i : ℤ) : i % (s * t) = i % s + s * (i / s % t) := by
  have hdiv : i / (s * t) = i / s / t := (Int.ediv_ediv_of_nonneg hs.le).symm
  rw [Int.emod_def i (s * t), Int.emod_def i s, Int.emod_def (i / s) t, hdiv]
  ring

theorem eval_mod (h : Positive ms) (i : ℤ) : eval ms (i % size ms) = eval ms i := by
  induction ms generalizing i with
  | nil => rfl
  | cons m ms ih =>
    have hm : 0 < m.1 := h.head
    have hlow : i % (m.1 * size ms) % m.1 = i % m.1 := Int.emod_emod_of_dvd i (dvd_mul_right _ _)
    have hhigh : i % (m.1 * size ms) / m.1 = i / m.1 % size ms := by
      rw [emod_mul hm, Int.add_mul_ediv_left _ _ hm.ne',
        Int.ediv_eq_zero_of_lt (Int.emod_nonneg _ hm.ne') (Int.emod_lt_of_pos _ hm), zero_add]
    simp only [eval, size, hlow, hhigh, ih h.tail]

/-- Two neighbours whose strides continue each other are one mode. -/
theorem eval_merge {s : ℤ} (hs : 0 < s) (t d : ℤ) (ms : List Mode) (i : ℤ) :
    eval ((s, d) :: (t, s * d) :: ms) i = eval ((s * t, d) :: ms) i := by
  have hdiv : i / (s * t) = i / s / t := (Int.ediv_ediv_of_nonneg hs.le).symm
  simp only [eval, emod_mul hs, hdiv]
  ring

variable {i : ℤ}

/-- On a single mode an index in range is its own digit. -/
theorem eval_singleton (h0 : 0 ≤ i) (h : i < m.1) : eval [m] i = i * m.2 := by
  simp [Int.emod_eq_of_lt h0 h]

/-! ### Digits -/

/-- The digits of an index, one for each mode. -/
def digits : List Mode → ℤ → List ℤ
  | [], _ => []
  | m :: ms, i => i % m.1 :: digits ms (i / m.1)

/-- The index that digits stand for. -/
def index : List Mode → List ℤ → ℤ
  | m :: ms, c :: cs => c + m.1 * index ms cs
  | _, _ => 0

/-- The sum of digits, each times its stride. -/
def value : List Mode → List ℤ → ℤ
  | m :: ms, c :: cs => c * m.2 + value ms cs
  | _, _ => 0

/-- One digit for each mode, below the extent. -/
def InRange (ms : List Mode) (cs : List ℤ) : Prop :=
  List.Forall₂ (fun m c => 0 ≤ c ∧ c < m.1) ms cs

attribute [local simp] digits index value

variable {cs : List ℤ}

theorem InRange.exists_cons (h : InRange (m :: ms) cs) :
    ∃ c cs', cs = c :: cs' ∧ (0 ≤ c ∧ c < m.1) ∧ InRange ms cs' := by
  cases h with
  | cons hc hcs => exact ⟨_, _, rfl, hc, hcs⟩

theorem eval_eq_value (ms : List Mode) (i : ℤ) : eval ms i = value ms (digits ms i) := by
  induction ms generalizing i with
  | nil => rfl
  | cons m ms ih => simp [ih]

theorem inRange_digits (h : Positive ms) (i : ℤ) : InRange ms (digits ms i) := by
  induction ms generalizing i with
  | nil => exact Forall₂.nil
  | cons m ms ih =>
    exact Forall₂.cons ⟨Int.emod_nonneg _ h.head.ne', Int.emod_lt_of_pos _ h.head⟩ (ih h.tail _)

theorem index_nonneg (h : InRange ms cs) : 0 ≤ index ms cs := by
  induction h with
  | nil => simp
  | cons hc _ ih =>
    have hs := lt_of_le_of_lt hc.1 hc.2
    exact add_nonneg hc.1 (mul_nonneg hs.le ih)

theorem index_lt (h : InRange ms cs) : index ms cs < size ms := by
  induction h with
  | nil => simp
  | @cons m c ms cs hc _ ih =>
    have hs := lt_of_le_of_lt hc.1 hc.2
    have hstep : m.1 * (index ms cs + 1) ≤ m.1 * size ms := mul_le_mul_of_nonneg_left ih hs.le
    calc c + m.1 * index ms cs < m.1 + m.1 * index ms cs := by linarith [hc.2]
      _ = m.1 * (index ms cs + 1) := by ring
      _ ≤ m.1 * size ms := hstep

theorem digits_index (h : InRange ms cs) : digits ms (index ms cs) = cs := by
  induction h with
  | nil => rfl
  | @cons m c ms cs hc _ ih =>
    have hs := lt_of_le_of_lt hc.1 hc.2
    have hlow : (c + m.1 * index ms cs) % m.1 = c := by
      rw [Int.add_mul_emod_self_left, Int.emod_eq_of_lt hc.1 hc.2]
    have hhigh : (c + m.1 * index ms cs) / m.1 = index ms cs := by
      rw [Int.add_mul_ediv_left _ _ hs.ne', Int.ediv_eq_zero_of_lt hc.1 hc.2, zero_add]
    simp only [index, digits, hlow, hhigh, ih]

theorem index_digits (h : Positive ms) (h0 : 0 ≤ i) (hi : i < size ms) :
    index ms (digits ms i) = i := by
  induction ms generalizing i with
  | nil =>
    simp only [size] at hi
    simp only [index]
    omega
  | cons m ms ih =>
    have hi' : i / m.1 < size ms := Int.ediv_lt_of_lt_mul h.head (by rwa [mul_comm])
    simp only [digits, index, ih h.tail (Int.ediv_nonneg h0 h.head.le) hi']
    exact Int.emod_add_mul_ediv i m.1

theorem eval_index (h : InRange ms cs) : eval ms (index ms cs) = value ms cs := by
  rw [eval_eq_value, digits_index h]

theorem digits_inj (h : Positive ms) {j : ℤ} (hi0 : 0 ≤ i) (hi : i < size ms) (hj0 : 0 ≤ j)
    (hj : j < size ms) (heq : digits ms i = digits ms j) : i = j := by
  rw [← index_digits h hi0 hi, heq, index_digits h hj0 hj]

theorem index_map_fst (ms : List Mode) (cs : List ℤ) :
    index ((ms.map Prod.fst).map (·, 0)) cs = index ms cs := by
  induction ms generalizing cs with
  | nil => rfl
  | cons m ms ih =>
    cases cs with
    | nil => rfl
    | cons c cs => simp only [map_cons, index, ih]

/-- The index of digits depends on the extents only. -/
theorem index_congr (h : ms.map Prod.fst = ns.map Prod.fst) (cs : List ℤ) :
    index ms cs = index ns cs := by
  rw [← index_map_fst, h, index_map_fst]

theorem value_append {as bs : List ℤ} (h : InRange ms as) :
    value (ms ++ ns) (as ++ bs) = value ms as + value ns bs := by
  induction h with
  | nil => simp
  | cons _ _ ih => simp [ih, add_assoc]

theorem inRange_zeros (h : Positive ms) : InRange ms (List.replicate ms.length 0) := by
  induction ms with
  | nil => exact Forall₂.nil
  | cons m ms ih => exact Forall₂.cons ⟨le_rfl, h.head⟩ (ih h.tail)

theorem value_zeros (ms : List Mode) : value ms (List.replicate ms.length 0) = 0 := by
  induction ms with
  | nil => rfl
  | cons m ms ih => simpa [replicate_succ, value] using ih

/-! ### Modes that cover an interval -/

/-- The values of the modes are the multiples of `q` below `q * size`, each the value of
exactly one list of digits. -/
structure Covers (q : ℤ) (ms : List Mode) : Prop where
  inside : ∀ cs, InRange ms cs → q ∣ value ms cs ∧ 0 ≤ value ms cs ∧ value ms cs < q * size ms
  onto : ∀ v, 0 ≤ v → v < size ms → ∃ cs, InRange ms cs ∧ value ms cs = q * v
  inj : ∀ cs cs', InRange ms cs → InRange ms cs' → value ms cs = value ms cs' → cs = cs'

/-- Each stride is the product of the extents before it, from `q` on; strides of modes of
extent one do not matter. -/
def Runs : ℤ → List Mode → Prop
  | _, [] => True
  | q, m :: ms => (m.1 ≠ 1 → m.2 = q) ∧ Runs (q * m.1) ms

variable {q : ℤ}

theorem mul_stride {c : ℤ} (hm : m.1 ≠ 1 → m.2 = q) (hc : 0 ≤ c ∧ c < m.1) : c * m.2 = q * c := by
  by_cases h1 : m.1 = 1
  · obtain rfl : c = 0 := by omega
    simp
  · rw [hm h1, mul_comm]

theorem Runs.value_eq (hruns : Runs q ms) (h : InRange ms cs) : value ms cs = q * index ms cs := by
  induction h generalizing q with
  | nil => simp
  | cons hc _ ih =>
    rw [value, index, mul_stride hruns.1 hc, ih hruns.2]
    ring

/-- Modes whose strides run through the products of the extents cover an interval. -/
theorem covers_of_runs (hq : 0 < q) (h : Positive ms) (hruns : Runs q ms) : Covers q ms where
  inside := by
    intro cs hcs
    rw [hruns.value_eq hcs]
    exact ⟨dvd_mul_right _ _, mul_nonneg hq.le (index_nonneg hcs),
      mul_lt_mul_of_pos_left (index_lt hcs) hq⟩
  onto := by
    intro v h0 hv
    have hr := inRange_digits h v
    exact ⟨digits ms v, hr, by rw [hruns.value_eq hr, index_digits h h0 hv]⟩
  inj := by
    intro cs cs' hcs hcs' heq
    rw [hruns.value_eq hcs, hruns.value_eq hcs'] at heq
    rw [← digits_index hcs, ← digits_index hcs', mul_left_cancel₀ hq.ne' heq]

variable {cs' : List ℤ}

/-- Digits follow a rearrangement of the modes, different ones to different ones. -/
theorem exists_rearrange (h : ms.Perm ns) (hcs : InRange ms cs)
    (hcs' : InRange ms cs') : ∃ ds ds', (InRange ns ds ∧ (ms.zip cs).Perm (ns.zip ds)) ∧
      (InRange ns ds' ∧ (ms.zip cs').Perm (ns.zip ds')) ∧ (ds = ds' → cs = cs') := by
  induction h generalizing cs cs' with
  | nil =>
    cases hcs
    cases hcs'
    exact ⟨[], [], ⟨.nil, .nil⟩, ⟨.nil, .nil⟩, id⟩
  | cons m _ ih =>
    obtain ⟨c, cs, rfl, hc, hcs⟩ := hcs.exists_cons
    obtain ⟨c', cs', rfl, hc', hcs'⟩ := hcs'.exists_cons
    obtain ⟨ds, ds', h, h', heq⟩ := ih hcs hcs'
    refine ⟨c :: ds, c' :: ds', ⟨.cons hc h.1, h.2.cons _⟩, ⟨.cons hc' h'.1, h'.2.cons _⟩, ?_⟩
    intro hds
    rw [(cons.inj hds).1, heq (cons.inj hds).2]
  | swap m n l =>
    obtain ⟨c, cs, rfl, hc, hcs⟩ := hcs.exists_cons
    obtain ⟨d, cs, rfl, hd, hcs⟩ := hcs.exists_cons
    obtain ⟨c', cs', rfl, hc', hcs'⟩ := hcs'.exists_cons
    obtain ⟨d', cs', rfl, hd', hcs'⟩ := hcs'.exists_cons
    refine ⟨d :: c :: cs, d' :: c' :: cs', ⟨.cons hd (.cons hc hcs), .swap _ _ _⟩,
      ⟨.cons hd' (.cons hc' hcs'), .swap _ _ _⟩, fun hds => ?_⟩
    simp only [cons.injEq] at hds ⊢
    exact ⟨hds.2.1, hds.1, hds.2.2⟩
  | trans _ _ ih ih' =>
    obtain ⟨ds, ds', h, h', heq⟩ := ih hcs hcs'
    obtain ⟨es, es', k, k', heq'⟩ := ih' h.1 h'.1
    exact ⟨es, es', ⟨k.1, h.2.trans k.2⟩, ⟨k'.1, h'.2.trans k'.2⟩, fun hes => heq (heq' hes)⟩

theorem value_eq_sum (ms : List Mode) (cs : List ℤ) :
    value ms cs = ((ms.zip cs).map fun p => p.2 * p.1.2).sum := by
  induction ms generalizing cs with
  | nil => simp
  | cons m ms ih => cases cs with
    | nil => simp
    | cons c cs => simp [ih]

theorem value_perm (h : (ms.zip cs).Perm (ns.zip cs')) : value ms cs = value ns cs' := by
  rw [value_eq_sum, value_eq_sum]
  exact (h.map _).sum_eq

/-- Covering does not depend on the order of the modes. -/
theorem Covers.perm (hcov : Covers q ms) (h : ms.Perm ns) : Covers q ns := by
  have hsize := size_perm h
  refine ⟨?_, ?_, ?_⟩
  · intro cs hcs
    obtain ⟨ds, -, ⟨hr, hp⟩, -⟩ := exists_rearrange h.symm hcs hcs
    rw [value_perm hp, ← hsize]
    exact hcov.inside _ hr
  · intro v h0 hv
    obtain ⟨cs, hcs, hval⟩ := hcov.onto v h0 (by rwa [hsize])
    obtain ⟨ds, -, ⟨hr, hp⟩, -⟩ := exists_rearrange h hcs hcs
    exact ⟨ds, hr, by rw [← value_perm hp, hval]⟩
  · intro cs cs' hcs hcs' heq
    obtain ⟨ds, ds', ⟨hr, hp⟩, ⟨hr', hp'⟩, hback⟩ := exists_rearrange h.symm hcs hcs'
    exact hback (hcov.inj _ _ hr hr' (by rw [← value_perm hp, ← value_perm hp', heq]))

/-! ### Covering modes run through products -/

/-- The digits with a one for the given mode and zeros elsewhere. -/
theorem exists_unit (h : Positive ms) (hm : m ∈ ms) (h1 : 1 < m.1) :
    ∃ cs, InRange ms cs ∧ value ms cs = m.2 ∧ ∃ c ∈ cs, c ≠ 0 := by
  induction ms with
  | nil => exact absurd hm not_mem_nil
  | cons n ms ih =>
    rcases mem_cons.mp hm with rfl | hm
    · refine ⟨1 :: replicate ms.length 0,
        Forall₂.cons ⟨by omega, h1⟩ (inRange_zeros h.tail), ?_, 1, by simp, by simp⟩
      simp [value_zeros]
    · obtain ⟨cs, hcs, hval, c, hc, hne⟩ := ih h.tail hm
      exact ⟨0 :: cs, Forall₂.cons ⟨le_rfl, h.head⟩ hcs, by simp [hval], c,
        by simp [hc], hne⟩

/-- In modes that cover, the stride of a mode of extent above one is a positive multiple. -/
theorem Covers.stride (hcov : Covers q ms) (h : Positive ms) (hm : m ∈ ms)
    (h1 : 1 < m.1) : q ∣ m.2 ∧ 0 < m.2 := by
  obtain ⟨cs, hcs, hval, c, hc, hne⟩ := exists_unit h hm h1
  obtain ⟨hdvd, h0, -⟩ := hcov.inside cs hcs
  rw [hval] at hdvd h0
  refine ⟨hdvd, lt_of_le_of_ne h0 fun hzero => hne ?_⟩
  -- otherwise the unit digits and the zeros would have the same value
  have hsame := hcov.inj cs _ hcs (inRange_zeros h) (by rw [hval, value_zeros, hzero])
  rw [hsame] at hc
  exact eq_of_mem_replicate hc

/-- With strides of at least `q`, a value is zero or at least some stride. -/
theorem exists_stride_le (hq : 0 < q) (hcs : InRange ms cs) (hstride : ∀ n ∈ ms, q ≤ n.2) :
    0 ≤ value ms cs ∧ (value ms cs ≠ 0 → ∃ n ∈ ms, n.2 ≤ value ms cs) := by
  induction hcs with
  | nil => exact ⟨le_rfl, fun hne => absurd rfl hne⟩
  | @cons n c ms cs hc _ ih =>
    obtain ⟨h0, hle⟩ := ih fun n hn => hstride n (mem_cons_of_mem _ hn)
    have hn := hstride n mem_cons_self
    rw [value]
    by_cases hzero : c = 0
    · rw [hzero, zero_mul, zero_add]
      refine ⟨h0, fun hne => ?_⟩
      obtain ⟨k, hk, hkle⟩ := hle hne
      exact ⟨k, mem_cons_of_mem _ hk, hkle⟩
    · have hmul : n.2 ≤ c * n.2 := le_mul_of_one_le_left (by omega) (by omega)
      exact ⟨by omega, fun _ => ⟨n, mem_cons_self, by omega⟩⟩

/-- Taking a mode with stride `q` away, the others cover the multiples of `q * m.1`. -/
theorem Covers.tail (hq : 0 < q) (h : Positive (m :: ms)) (hcov : Covers q (m :: ms))
    (hm : m.1 ≠ 1 → m.2 = q) : Covers (q * m.1) ms := by
  have hs : 0 < m.1 := h.head
  have hvalue : ∀ {c : ℤ} (cs : List ℤ), 0 ≤ c ∧ c < m.1 →
      value (m :: ms) (c :: cs) = q * c + value ms cs := by
    intro c cs hc
    rw [value, mul_stride hm hc]
  have hzero : ∀ cs, InRange ms cs → InRange (m :: ms) (0 :: cs) :=
    fun cs hcs => Forall₂.cons ⟨le_rfl, hs⟩ hcs
  have hvalue0 : ∀ cs, value (m :: ms) (0 :: cs) = value ms cs := fun cs => by
    rw [hvalue cs ⟨le_rfl, hs⟩, mul_zero, zero_add]
  have hquot : ∀ cs, InRange ms cs → ∃ x : ℕ, value ms cs = q * x ∧ x < size (m :: ms) := by
    intro cs hcs
    obtain ⟨⟨x, hx⟩, h0, hlt⟩ := hcov.inside _ (hzero cs hcs)
    rw [hx] at h0 hlt
    lift x to ℕ using nonneg_of_mul_nonneg_right h0 hq
    exact ⟨x, (hvalue0 cs).symm.trans hx, lt_of_mul_lt_mul_left hlt hq.le⟩
  have hmul : ∀ (x : ℕ) (cs : List ℤ), InRange ms cs → value ms cs = q * x → m.1 ∣ x := by
    intro x
    -- the multiple of `m.1` at or below `x` is the value of a smaller one, or of `x` itself
    induction x using Nat.strong_induction_on with
    | _ x ih =>
      intro cs hcs hval
      have hlt := (hcov.inside _ (hzero cs hcs)).2.2
      rw [hvalue0, hval] at hlt
      have hlt := lt_of_mul_lt_mul_left hlt hq.le
      have hr : 0 ≤ (x : ℤ) % m.1 ∧ (x : ℤ) % m.1 < m.1 :=
        ⟨Int.emod_nonneg _ hs.ne', Int.emod_lt_of_pos _ hs⟩
      have hsplit := Int.emod_add_mul_ediv (x : ℤ) m.1
      obtain ⟨ds, hds, hdval⟩ := hcov.onto (m.1 * (x / m.1))
        (mul_nonneg hs.le (Int.ediv_nonneg (by omega) hs.le)) (by omega)
      obtain ⟨c, ds, rfl, hc, hds⟩ := hds.exists_cons
      obtain ⟨z, hz, -⟩ := hquot ds hds
      rw [hvalue ds hc, hz, ← mul_add] at hdval
      have hcz := mul_left_cancel₀ hq.ne' hdval
      by_cases hzx : z < x
      · have hcdvd : m.1 ∣ c := (dvd_add_left (ih z hzx ds hds hz)).mp (hcz ▸ dvd_mul_right _ _)
        have hc0 := Int.eq_zero_of_dvd_of_nonneg_of_lt hc.1 hc.2 hcdvd
        -- now `x` has two numerals
        have htwo := hcov.inj _ _ (hzero cs hcs) (Forall₂.cons hr hds) (by
          rw [hvalue0, hvalue ds hr, hval, hz, ← mul_add]
          congr 1
          omega)
        exact Int.dvd_of_emod_eq_zero (cons.inj htwo).1.symm
      · exact ⟨x / m.1, by omega⟩
  have hdvd : ∀ cs, InRange ms cs → ∃ k : ℤ, 0 ≤ k ∧ value ms cs = q * m.1 * k := by
    intro cs hcs
    obtain ⟨x, hx, -⟩ := hquot cs hcs
    obtain ⟨k, hk⟩ := hmul x cs hcs hx
    refine ⟨k, nonneg_of_mul_nonneg_right (hk ▸ Int.natCast_nonneg x) hs, ?_⟩
    rw [hx, hk, mul_assoc]
  refine ⟨?_, ?_, ?_⟩
  · intro cs hcs
    obtain ⟨k, hk0, hk⟩ := hdvd cs hcs
    have hlt := (hcov.inside _ (hzero cs hcs)).2.2
    rw [hvalue0, size, ← mul_assoc] at hlt
    exact ⟨⟨k, hk⟩, by rw [hk]; positivity, hlt⟩
  · intro v h0 hv
    obtain ⟨ds, hds, hdval⟩ := hcov.onto (m.1 * v) (mul_nonneg hs.le h0)
      (mul_lt_mul_of_pos_left hv hs)
    obtain ⟨c, ds, rfl, hc, hds⟩ := hds.exists_cons
    obtain ⟨k, -, hk⟩ := hdvd ds hds
    rw [hvalue ds hc, hk, mul_assoc, ← mul_add] at hdval
    have hsum := mul_left_cancel₀ hq.ne' hdval
    have hcdvd : m.1 ∣ c := (dvd_add_left (dvd_mul_right _ k)).mp (hsum ▸ dvd_mul_right _ v)
    rw [Int.eq_zero_of_dvd_of_nonneg_of_lt hc.1 hc.2 hcdvd, zero_add] at hsum
    exact ⟨ds, hds, by rw [hk, mul_left_cancel₀ hs.ne' hsum]⟩
  · intro cs cs' hcs hcs' heq
    exact (cons.inj (hcov.inj _ _ (hzero cs hcs) (hzero cs' hcs')
      (by rw [hvalue0, hvalue0, heq]))).2

/-- In some order, the strides of covering modes run through the products of the extents. -/
theorem Covers.exists_runs (hq : 0 < q) (h : Positive ms) (hcov : Covers q ms) :
    ∃ ns, ms.Perm ns ∧ Runs q ns := by
  induction hlen : ms.length generalizing ms q with
  | zero =>
    rw [length_eq_zero_iff.mp hlen]
    exact ⟨[], Perm.nil, trivial⟩
  | succ k ih =>
    -- a mode of extent one can go first; otherwise some stride is `q`
    obtain ⟨m, hm, hfirst⟩ : ∃ m ∈ ms, m.1 ≠ 1 → m.2 = q := by
      by_contra! hnone
      have hbig : ∀ m ∈ ms, 1 < m.1 := by
        intro m hm
        have := h m hm
        have := (hnone m hm).1
        omega
      have hstride : ∀ m ∈ ms, q ≤ m.2 := by
        intro m hm
        obtain ⟨hdvd, hpos⟩ := hcov.stride h hm (hbig m hm)
        exact Int.le_of_dvd hpos hdvd
      have hsize : 1 < size ms := by
        obtain ⟨n, ns, rfl⟩ := exists_cons_of_length_eq_add_one hlen
        have h1 := hbig n mem_cons_self
        have h2 := size_pos h.tail
        rw [size]
        nlinarith
      obtain ⟨cs, hcs, hval⟩ := hcov.onto 1 zero_le_one hsize
      rw [mul_one] at hval
      obtain ⟨m, hm, hle⟩ := (exists_stride_le hq hcs hstride).2 (hval ▸ hq.ne')
      exact (hnone m hm).2 (le_antisymm (hval ▸ hle) (hstride m hm))
    have hperm : ms.Perm (m :: ms.erase m) := perm_cons_erase hm
    have hpos : Positive (m :: ms.erase m) := fun n hn => h n (hperm.mem_iff.mpr hn)
    have hrest := (hcov.perm hperm).tail hq hpos hfirst
    obtain ⟨ns, hns, hruns⟩ := ih (mul_pos hq hpos.head) hpos.tail hrest (by
      rw [length_erase_of_mem hm, hlen]
      rfl)
    exact ⟨m :: ns, hperm.trans (hns.cons m), hfirst, hruns⟩

variable {p : Mode × ℤ}

/-- Dividing by a stride and reducing by the extent gives the digit. -/
theorem Runs.digit {r : ℤ} (hruns : Runs q ms) (hcs : InRange ms cs) (hr0 : 0 ≤ r) (hr : r < q)
    (hp : p ∈ ms.zip cs) (h1 : p.1.1 ≠ 1) : (r + q * index ms cs) / p.1.2 % p.1.1 = p.2 := by
  induction hcs generalizing q r with
  | nil => simp at hp
  | @cons m c ms cs hc hrest ih =>
    have hs : 0 < m.1 := lt_of_le_of_lt hc.1 hc.2
    rcases mem_cons.mp hp with rfl | hp
    · rw [hruns.1 h1, Int.add_mul_ediv_left _ _ (by omega), Int.ediv_eq_zero_of_lt hr0 hr, zero_add]
      simp only [index]
      rw [Int.add_mul_emod_self_left, Int.emod_eq_of_lt hc.1 hc.2]
    -- the lower digits go into the remainder
    have hlow : r + q * c < q * m.1 := by nlinarith [hc.2]
    have hnext := ih hruns.2 (r := r + q * c) (by nlinarith [hc.1]) hlow hp
    rw [← hnext]
    congr 2
    simp only [index]
    ring

/-- The digit of every mode of covering modes, from the value alone. -/
theorem Covers.digit (hcov : Covers 1 ms) (h : Positive ms) (hcs : InRange ms cs)
    (hp : p ∈ ms.zip cs) (h1 : p.1.1 ≠ 1) : value ms cs / p.1.2 % p.1.1 = p.2 := by
  obtain ⟨ns, hperm, hruns⟩ := hcov.exists_runs one_pos h
  obtain ⟨ds, -, ⟨hr, hzip⟩, -⟩ := exists_rearrange hperm hcs hcs
  have hdigit := hruns.digit hr le_rfl one_pos (hzip.mem_iff.mp hp) h1
  rw [zero_add, ← hruns.value_eq hr, ← value_perm hzip] at hdigit
  exact hdigit

end MixedRadix
