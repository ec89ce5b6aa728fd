/-
Runs of contiguous modes.

Two neighbouring modes are contiguous when the second stride continues the first mode.  Modes
without those of extent one fall into maximal runs of contiguous ones, and each run is one
mode (`merged`).

* `runs_concat_unit`, `runs_concat_first`, `runs_concat_join`, `runs_concat_break` — the runs
  when one more mode comes in;
* `eval_coalesced`, `size_coalesced` — merging keeps the values and the size;
* `coalesced_extent`, `coalesced_isChain` — what is left cannot be merged any further.
-/
import Mathlib.Data.List.SplitBy
import MojoMac.MixedRadix

open List

namespace MixedRadix

/-- The stride of the second mode continues the first mode. -/
def contiguous (m n : Mode) : Bool := m.1 * m.2 == n.2

/-- The maximal runs of contiguous modes, without those of extent one. -/
def runs (ms : List Mode) : List (List Mode) :=
  (ms.filter fun m => m.1 ≠ 1).splitBy contiguous

/-- The mode that a run amounts to. -/
def merged (g : List Mode) : Mode :=
  ((g.map Prod.fst).prod, (g.head?.map Prod.snd).getD 0)

/-- The modes of runs; a single mode of extent one where there are none. -/
def mergedAll (gs : List (List Mode)) : List Mode :=
  if gs = [] then [(1, 0)] else gs.map merged

def coalesced (ms : List Mode) : List Mode :=
  mergedAll (runs ms)

variable {ms : List Mode} {m : Mode} {g : List Mode} {gs : List (List Mode)}

theorem runs_ne_nil (hg : g ∈ runs ms) : g ≠ [] :=
  ne_nil_of_mem_splitBy hg

/-! ### One more mode -/

theorem runs_concat_unit (ms : List Mode) (h : m.1 = 1) : runs (ms ++ [m]) = runs ms := by
  simp [runs, filter_append, h]

theorem filter_concat (ms : List Mode) (h : m.1 ≠ 1) :
    (ms ++ [m]).filter (fun m => m.1 ≠ 1) = ms.filter (fun m => m.1 ≠ 1) ++ [m] := by
  simp [filter_append, h]

theorem runs_concat_first (hruns : runs ms = []) (h : m.1 ≠ 1) : runs (ms ++ [m]) = [[m]] := by
  rw [runs, filter_concat ms h, splitBy_eq_nil.mp hruns]
  rfl

theorem runs_concat_join (hruns : runs ms = gs ++ [g]) (h : m.1 ≠ 1)
    (hjoin : ∀ l ∈ g.getLast?, contiguous l m = true) : runs (ms ++ [m]) = gs ++ [g ++ [m]] := by
  have hg : g ≠ [] := runs_ne_nil (by rw [hruns]; simp : g ∈ runs ms)
  rw [runs, splitBy_eq_iff] at hruns
  obtain ⟨hflat, hnil, hchain, hbreak⟩ := hruns
  rw [runs, filter_concat ms h, splitBy_eq_iff]
  refine ⟨by rw [hflat]; simp, ?_, ?_, ?_⟩
  · simp only [mem_append, mem_singleton, not_or] at hnil ⊢
    exact ⟨hnil.1, by simp⟩
  · intro x hx
    rcases mem_append.mp hx with hx | hx
    · exact hchain x (mem_append_left _ hx)
    rw [mem_singleton] at hx
    subst hx
    rw [isChain_append]
    refine ⟨hchain g (by simp), isChain_singleton m, fun x hx y hy => ?_⟩
    simp only [head?_cons, Option.mem_some_iff] at hy
    exact hy ▸ hjoin x hx
  · -- the longer run starts with the same mode
    rw [isChain_append] at hbreak ⊢
    refine ⟨hbreak.1, isChain_singleton _, fun x hx y hy => ?_⟩
    obtain ⟨hx', hg', hr⟩ := hbreak.2.2 x hx g (by simp)
    simp only [head?_cons, Option.mem_some_iff] at hy
    subst hy
    exact ⟨hx', by simp, by rwa [head_append_of_ne_nil hg]⟩

theorem runs_concat_break (hruns : runs ms = gs ++ [g]) (h : m.1 ≠ 1)
    (hbreak : ∀ l ∈ g.getLast?, contiguous l m = false) :
    runs (ms ++ [m]) = gs ++ [g] ++ [[m]] := by
  have hg : g ≠ [] := runs_ne_nil (by rw [hruns]; simp : g ∈ runs ms)
  have hlast : (ms.filter fun m => m.1 ≠ 1).getLast? = g.getLast? := by
    rw [← flatten_splitBy contiguous (ms.filter fun m => m.1 ≠ 1), ← runs, hruns,
      flatten_append, flatten_singleton, getLast?_append_of_ne_nil _ hg]
  rw [runs, filter_concat ms h, splitBy_append, ← runs, hruns]
  · rfl
  · rw [hlast]
    intro x hx y hy
    simp only [head?_cons, Option.mem_some_iff] at hy
    exact hy ▸ hbreak x hx

/-! ### What a run amounts to -/

theorem runs_isChain (hg : g ∈ runs ms) : g.IsChain fun m n => contiguous m n = true :=
  isChain_of_mem_splitBy hg

theorem mem_of_mem_runs (hg : g ∈ runs ms) (hm : m ∈ g) : m ∈ ms ∧ m.1 ≠ 1 := by
  have hflat : m ∈ (runs ms).flatten := mem_flatten.mpr ⟨g, hg, hm⟩
  rw [runs, flatten_splitBy] at hflat
  simpa using hflat

theorem merged_singleton (m : Mode) : merged [m] = m := by
  simp [merged]

theorem merged_concat (hg : g ≠ []) (m : Mode) :
    merged (g ++ [m]) = ((merged g).1 * m.1, (merged g).2) := by
  simp [merged, head?_append_of_ne_nil _ hg]

/-- A run ends where its last mode ends. -/
theorem merged_mul (hchain : g.IsChain fun m n => contiguous m n = true) {l : Mode}
    (hl : l ∈ g.getLast?) : (merged g).1 * (merged g).2 = l.1 * l.2 := by
  induction g using reverseRecOn generalizing l with
  | nil => simp at hl
  | append_singleton g m ih =>
    obtain rfl : m = l := by simpa using hl
    by_cases hg : g = []
    · subst hg
      simp [merged]
    obtain ⟨k, hk⟩ : ∃ k, k ∈ g.getLast? := ⟨g.getLast hg, getLast_mem_getLast? hg⟩
    rw [isChain_append] at hchain
    have hend := ih hchain.1 hk
    have hstep : k.1 * k.2 = m.2 := by simpa [contiguous] using hchain.2.2 k hk m (by simp)
    rw [merged_concat hg, ← hstep, ← hend]
    ring

theorem Positive.of_run (h : Positive ms) (hg : g ∈ runs ms) : Positive g :=
  fun m hm => h m (mem_of_mem_runs hg hm).1

theorem size_eq_merged (g : List Mode) : size g = (merged g).1 :=
  size_eq_prod g

theorem merged_pos (h : Positive g) : 0 < (merged g).1 :=
  size_eq_merged g ▸ size_pos h

/-- A run and its mode have the same values. -/
theorem eval_merged (h : Positive g) (hg : g ≠ [])
    (hchain : g.IsChain fun m n => contiguous m n = true) (i : ℤ) :
    eval g i = eval [merged g] i := by
  induction g using reverseRecOn generalizing i with
  | nil => exact absurd rfl hg
  | append_singleton g m ih =>
    by_cases hnil : g = []
    · subst hnil
      simp [merged_singleton]
    obtain ⟨k, hk⟩ : ∃ k, k ∈ g.getLast? := ⟨g.getLast hnil, getLast_mem_getLast? hnil⟩
    rw [isChain_append] at hchain
    have hend := merged_mul hchain.1 hk
    have hstep : k.1 * k.2 = m.2 := by simpa [contiguous] using hchain.2.2 k hk m (by simp)
    have hpos : 0 < (merged g).1 := merged_pos h.left
    -- the last mode continues the mode of the others
    have hmerge := eval_merge hpos m.1 (merged g).2 [] i
    rw [hend, hstep] at hmerge
    rw [eval_append h.left, ih h.left hnil hchain.1, size_eq_merged, merged_concat hnil, ← hmerge]
    simp [eval]

/-! ### All runs -/

theorem positive_map_merged (h : ∀ g ∈ gs, Positive g) : Positive (gs.map merged) := by
  intro m hm
  obtain ⟨g, hg, rfl⟩ := mem_map.mp hm
  exact merged_pos (h g hg)

theorem size_flatten (gs : List (List Mode)) : size gs.flatten = size (gs.map merged) := by
  induction gs with
  | nil => rfl
  | cons g gs ih => rw [flatten_cons, size_append, ih, size_eq_merged, map_cons, size]

theorem eval_flatten (h : ∀ g ∈ gs, Positive g ∧ g ≠ [] ∧ g.IsChain fun m n => contiguous m n = true)
    (i : ℤ) : eval gs.flatten i = eval (gs.map merged) i := by
  induction gs generalizing i with
  | nil => rfl
  | cons g gs ih =>
    obtain ⟨hpos, hne, hchain⟩ := h g mem_cons_self
    rw [flatten_cons, eval_append hpos, eval_merged hpos hne hchain, ih fun g' hg' => h g'
      (mem_cons_of_mem _ hg'), map_cons, eval, size_eq_merged]
    simp [eval]

theorem eval_filter (ms : List Mode) (i : ℤ) : eval (ms.filter fun m => m.1 ≠ 1) i = eval ms i := by
  induction ms generalizing i with
  | nil => rfl
  | cons m ms ih =>
    by_cases h1 : m.1 = 1
    · simpa [eval, h1] using ih i
    · simpa [eval, h1] using ih (i / m.1)

theorem size_filter (ms : List Mode) : size (ms.filter fun m => m.1 ≠ 1) = size ms := by
  induction ms with
  | nil => rfl
  | cons m ms ih =>
    by_cases h1 : m.1 = 1
    · simpa [size, h1] using ih
    · simpa [size, h1] using Or.inl ih

theorem flatten_runs (ms : List Mode) : (runs ms).flatten = ms.filter fun m => m.1 ≠ 1 :=
  flatten_splitBy _ _

theorem positive_coalesced (h : Positive ms) : Positive (coalesced ms) := by
  rw [coalesced, mergedAll]
  split
  · intro m hm
    rw [mem_singleton.mp hm]
    exact one_pos
  · exact positive_map_merged fun g hg => h.of_run hg

/-- **Merging runs keeps the values.** -/
theorem eval_coalesced (h : Positive ms) (i : ℤ) : eval (coalesced ms) i = eval ms i := by
  rw [← eval_filter ms, ← flatten_runs, coalesced, mergedAll]
  split_ifs with hnil
  · simp [hnil, eval]
  · exact (eval_flatten (fun g hg => ⟨h.of_run hg, runs_ne_nil hg, runs_isChain hg⟩) i).symm

theorem size_coalesced (ms : List Mode) : size (coalesced ms) = size ms := by
  rw [← size_filter ms, ← flatten_runs, size_flatten, coalesced, mergedAll]
  split_ifs with hnil
  · simp [hnil, size]
  · rfl

theorem one_lt_merged (h : Positive ms) (hg : g ∈ runs ms) : 1 < (merged g).1 := by
  obtain ⟨m, g, rfl⟩ := exists_cons_of_ne_nil (runs_ne_nil hg)
  have hm : 1 < m.1 := by
    obtain ⟨hms, h1⟩ := mem_of_mem_runs hg mem_cons_self
    have := h m hms
    omega
  have hrest := size_pos (h.of_run hg).tail
  rw [← size_eq_merged, size]
  nlinarith

/-- Only a layout that is a single element keeps a mode of extent one. -/
theorem coalesced_extent (h : Positive ms) :
    coalesced ms = [(1, 0)] ∨ ∀ m ∈ coalesced ms, m.1 ≠ 1 := by
  rw [coalesced, mergedAll]
  split
  · exact Or.inl rfl
  · refine Or.inr fun m hm => ?_
    obtain ⟨g, hg, rfl⟩ := mem_map.mp hm
    have := one_lt_merged h hg
    omega

/-- No two neighbours of the result are contiguous. -/
theorem coalesced_isChain (ms : List Mode) :
    (coalesced ms).IsChain fun m n => contiguous m n = false := by
  rw [coalesced, mergedAll]
  split
  · exact isChain_singleton _
  rw [isChain_map]
  have hbreak : (runs ms).IsChain fun a b => ∃ ha hb, contiguous (a.getLast ha) (b.head hb) = false :=
    isChain_getLast_head_splitBy contiguous _
  rw [isChain_iff_getElem] at hbreak ⊢
  intro i hi
  obtain ⟨ha, hb, hr⟩ := hbreak i hi
  have hchain : ((runs ms)[i]).IsChain fun m n => contiguous m n = true :=
    runs_isChain (getElem_mem _)
  have hend := merged_mul hchain (getLast_mem_getLast? ha)
  have hstart : (merged (runs ms)[i + 1]).2 = ((runs ms)[i + 1].head hb).2 := by
    simp [merged, head?_eq_some_head hb]
  simpa [contiguous, hend, hstart] using hr

end MixedRadix
