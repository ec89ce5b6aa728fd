/-
The complement of a layout (`layout/layout.mojo`).

`complement` sorts the modes by their strides, notes the gap before each of them and closes
with a mode that goes up to the given size.

* `Layout.foldlM_complementStep` — the loop writes the gaps into its two tuples;
* `Layout.complement_hasModes` — the result has the coalesced gaps as its modes;
* `Layout.complement_spec` — a layout and its complement add up to each number below the
  product of their sizes exactly once.
-/
import MojoMac.IntTupleSort
import MojoMac.LayoutCoalesce
import MojoMac.ModeGaps

open MixedRadix List

namespace Layout

open Nest IntTuple

/-! ### Sorting modes -/

/-- A mode as the sort sees it: the stride comes first. -/
def pair (m : Mode) : Nest :=
  node [leaf m.2, leaf m.1]

/-- The order of modes by stride, then by extent. -/
def strideLe (m n : Mode) : Bool :=
  decide (m.2 < n.2 ∨ m.2 = n.2 ∧ m.1 ≤ n.1)

theorem compares_lt : Compares IntTuple.lt pair strideLe := by
  intro a b x y hx hy
  obtain ⟨ps, hps, hall⟩ := (childElements hx).zip (childElements hy)
  have hps' : x.zip y = some ps := hps
  simp only [pair, children_node, zip_cons_cons, zip_nil_right] at hall
  obtain ⟨p, ps', ⟨hp1, hp2⟩, hall', rfl⟩ := forall₂_cons_right_iff.mp hall
  obtain ⟨q, ps'', ⟨hq1, hq2⟩, hnil, rfl⟩ := forall₂_cons_right_iff.mp hall'
  obtain rfl := forall₂_nil_right_iff.mp hnil
  simp only [IntTuple.lt, hps', IntTuple.lt.go, hp1.toInt, hp2.toInt, hq1.toInt, hq2.toInt,
    some_bind]
  by_cases hstride : a.2 = b.2
  · by_cases hextent : a.1 = b.1
    · simp [strideLe, hstride, hextent]
    simp only [if_pos hstride, if_neg hextent, strideLe]
    congr 1
    rw [Bool.eq_iff_iff]
    simp
    omega
  · simp only [if_neg hstride, strideLe]
    congr 1
    rw [Bool.eq_iff_iff]
    simp
    omega

theorem strideLe_trans (a b c : Mode) (hab : strideLe a b = true) (hbc : strideLe b c = true) :
    strideLe a c = true := by
  simp only [strideLe, decide_eq_true_eq] at *
  omega

theorem strideLe_total (a b : Mode) : (strideLe a b || strideLe b a) = true := by
  simp only [strideLe, Bool.or_eq_true, decide_eq_true_eq]
  omega

theorem strideLe_antisymm {a b : Mode} (hab : strideLe a b = true) (hba : strideLe b a = true) :
    a = b := by
  simp only [strideLe, decide_eq_true_eq] at *
  exact Prod.ext (by omega) (by omega)

variable {e : IntTuple}

section Sorted

variable {S D : IntArray} {n m : ℕ} {s d : Nest}

theorem length_children_lt {t : Nest} (h : Exact e t) : t.children.length < e.size := by
  obtain ⟨es, -, hall, hn, -, -⟩ := Denotes.exists_entries h
  rw [hn, words, ← hall.length_eq]
  omega

theorem ofZip_spec {zs : List (IntTuple × IntTuple)} {ms : List Mode}
    (h : List.Forall₂ (fun z m => Exact z.1 (leaf m.2) ∧ Exact z.2 (leaf m.1)) zs ms) :
    ∃ e, ofZip zs = some e ∧ Exact e (node (ms.map pair)) := by
  refine collect_spec _ pair h fun z m _ hz => ?_
  obtain ⟨e, he, hd⟩ := append_exact exact_empty hz.1
  obtain ⟨e', he', hd'⟩ := append_exact hd hz.2
  exact ⟨e', by simp [he, he'], hd'⟩

/-- The modes of a layout, sorted. -/
theorem sorted_modes (hs : Denotes S n s) (hd : Denotes D m d) :
    ∃ (fs fd pairs r : IntTuple) (zs : List (IntTuple × IntTuple)) (ms : List Mode),
      (IntTuple.mk S).flatten = some fs ∧ (IntTuple.mk D).flatten = some fd ∧
      fd.zip fs = some zs ∧ ofZip zs = some pairs ∧
      sorted IntTuple.lt pairs.size pairs = some r ∧ Exact r (node (ms.map pair)) ∧
      ms.Perm (modes s d) ∧ ms.Pairwise fun a b => strideLe a b = true := by
  obtain ⟨S', n', hfs, hs'⟩ := flatten_denotes hs
  obtain ⟨D', m', hfd, hd'⟩ := flatten_denotes hd
  obtain ⟨zs, hzip, hzs⟩ := zip_leaves_spec hd' hs'
  have hzs' : Forall₂ (fun z m => Exact z.1 (leaf m.2) ∧ Exact z.2 (leaf m.1)) zs (modes s d) := by
    rw [← zip_swap, forall₂_map_right_iff] at hzs
    exact hzs
  obtain ⟨pairs, hpairs, hpd⟩ := ofZip_spec hzs'
  have hfuel : (modes s d).length < pairs.size := by simpa using length_children_lt hpd
  obtain ⟨r, ms, hr, hrd, hperm, hsorted⟩ := sorted_spec compares_lt strideLe_trans
    strideLe_total hpd hfuel
  exact ⟨_, _, pairs, r, zs, ms, hfs, hfd, hzip, hpairs, hr, hrd, hperm, hsorted⟩

end Sorted

/-! ### The loop -/

variable {m : Mode} {vs : List ℤ}

section Loop

variable {ms gs : List Mode} {k : ℕ} {cur : ℤ}

/-- The variables of the loop when it has found some gaps. -/
def gapState (k : ℕ) (gs : List Mode) (cur : ℤ) : IntTuple × IntTuple × ℕ × ℤ :=
  (⟨(filled [some (k : ℤ)] k (gs.map Prod.fst)).1⟩, ⟨(filled [some (k : ℤ)] k (gs.map Prod.snd)).1⟩,
    gs.length, cur)

theorem replaceEntryInt_filled (h : vs.length < k) (v : ℤ) :
    (IntTuple.mk (filled [some (k : ℤ)] k vs).1).replaceEntryInt vs.length v
      = some ⟨(filled [some (k : ℤ)] k (vs ++ [v])).1⟩ := by
  have hset := setitem_filled [some (k : ℤ)] k vs h v
  have hpos : (filled [some (k : ℤ)] k vs).2 = vs.length + 1 := by simp [filled, Nat.add_comm]
  rw [hpos] at hset
  simp [replaceEntryInt, hset]

/-- A last entry, and the length corrected to what was written. -/
theorem setLen_filled {v : ℤ} (hroom : vs.length < k) (hmin : ∀ u ∈ vs ++ [v], minimumValue ≤ u) :
    ∃ x y n, (IntTuple.mk (filled [some (k : ℤ)] k vs).1).replaceEntryInt vs.length v = some x ∧
      setLen x (vs.length + 1) = some ⟨y⟩ ∧ Denotes y n (ofLeaves (vs ++ [v])) := by
  have hd := denotes_ints hmin (IntArray.init (k - (vs ++ [v]).length))
  refine ⟨_, _, _, replaceEntryInt_filled hroom v, ?_, hd⟩
  simp [setLen, filled, IntArray.setitem]

theorem exists_pair_get (he : Exact e (pair m)) : ∃ x y,
    e.get 0 = some x ∧ e.get 1 = some y ∧ x.toInt = some m.2 ∧ y.toInt = some m.1 := by
  obtain ⟨x, hx, hxd⟩ := Denotes.getitem he (i := 0) rfl
  obtain ⟨y, hy, hyd⟩ := Denotes.getitem he (i := 1) rfl
  exact ⟨x, y, hx, hy, hxd.toInt, hyd.toInt⟩

/-- A mode of extent one is passed over. -/
theorem complementStep_unit (he : Exact e (pair m)) (h1 : m.1 = 1)
    (st : IntTuple × IntTuple × ℕ × ℤ) : complementStep st e = some st := by
  obtain ⟨x, y, hx, hy, hxi, hyi⟩ := exists_pair_get he
  obtain ⟨rs, rd, i, cur⟩ := st
  simp [complementStep, hx, hy, hxi, hyi, h1]

/-- Any other mode adds the gap before it. -/
theorem complementStep_gap (he : Exact e (pair m)) (h1 : 1 < m.1)
    (h2 : 0 < m.2) (hcur : 0 < cur) (hdvd : cur ∣ m.2) (hroom : gs.length < k) :
    complementStep (gapState k gs cur) e
      = some (gapState k (gs ++ [(m.2 / cur, cur)]) (m.1 * m.2)) := by
  obtain ⟨x, y, hx, hy, hxi, hyi⟩ := exists_pair_get he
  have hunk := unknownValue_neg
  have hskip : ¬ (unknownValue ∈ [m.1, m.2] ∨ m.2 = 0 ∨ m.1 = 1) := by
    simp only [mem_cons, not_mem_nil, or_false, not_or]
    exact ⟨⟨by omega, by omega⟩, by omega, by omega⟩
  have hbound : cur ≤ m.1 * m.2 := by
    have hle : cur ≤ m.2 := Int.le_of_dvd h2 hdvd
    have hmul : 1 * m.2 ≤ m.1 * m.2 := mul_le_mul_of_nonneg_right h1.le h2.le
    linarith
  have hrs := replaceEntryInt_filled (k := k) (show (gs.map Prod.fst).length < k by simpa) (m.2 / cur)
  have hrd := replaceEntryInt_filled (k := k) (show (gs.map Prod.snd).length < k by simpa) cur
  rw [length_map] at hrs hrd
  simp only [complementStep, gapState, hx, hy, hxi, hyi, some_bind,
    if_neg hskip, not_not.mpr hbound, if_false, floordiv_of_pos hcur, hrs, hrd]
  simp

/-- The loop finds the gaps of the modes, in their order. -/
theorem foldlM_complementStep {es : List IntTuple}
    (h : List.Forall₂ (fun e m => Exact e (pair m)) es ms)
    (hspread : Spread (ms.filter fun m => m.1 ≠ 1)) (hcur : 0 < cur)
    (hn : Nested cur (ms.filter fun m => m.1 ≠ 1)) (hroom : gs.length + ms.length < k) :
    ∃ gs' cur', es.foldlM complementStep (gapState k gs cur)
        = some (gapState k (gs ++ gs') cur') ∧ 0 < cur' ∧ gs'.length ≤ ms.length ∧
      ∀ total, gaps total cur (ms.filter fun m => m.1 ≠ 1) = gs' ++ [(-(-total / cur'), cur')] := by
  induction h generalizing gs cur with
  | nil => exact ⟨[], cur, by simp, hcur, le_rfl, fun total => rfl⟩
  | @cons e m es ms he _ ih =>
    simp only [length_cons] at hroom
    by_cases h1 : m.1 = 1
    · have hfilter : (m :: ms).filter (fun m => m.1 ≠ 1) = ms.filter fun m => m.1 ≠ 1 := by
        simp [h1]
      rw [hfilter] at hspread hn ⊢
      obtain ⟨gs', cur', hrun, hcur', hlen, hgaps⟩ := ih hspread hcur hn
        (show gs.length + ms.length < k by omega)
      refine ⟨gs', cur', ?_, hcur', by simp; omega, hgaps⟩
      simp only [foldlM_cons, complementStep_unit he h1, some_bind, hrun]
    · have hfilter : (m :: ms).filter (fun m => m.1 ≠ 1) = m :: ms.filter fun m => m.1 ≠ 1 := by
        simp [h1]
      rw [hfilter] at hspread hn ⊢
      have hstep := complementStep_gap he hspread.head.1 hspread.head.2 hcur hn.1
        (show gs.length < k by omega)
      obtain ⟨gs', cur', hrun, hcur', hlen, hgaps⟩ := ih hspread.tail hspread.end_pos hn.2
        (show (gs ++ [(m.2 / cur, cur)]).length + ms.length < k by simp; omega)
      refine ⟨(m.2 / cur, cur) :: gs', cur', ?_, hcur', by simp; omega, fun total => ?_⟩
      · simp only [foldlM_cons, hstep, some_bind, hrun]
        simp
      · rw [gaps, hgaps total, cons_append]

end Loop

/-! ### The complement -/

section Complement

variable {S D : IntArray} {n m : ℕ} {s d : Nest} {total : ℤ}

/-- The sort puts the modes with gaps before them into the order in which they are nested. -/
theorem nested_of_sorted {ms ss : List Mode} (hperm : ss.Perm ms)
    (hsorted : ss.Pairwise fun a b => strideLe a b = true)
    (hspread : Spread (ms.filter fun m => m.1 ≠ 1)) (hch : Chained ms) :
    Nested 1 (ss.filter fun m => m.1 ≠ 1) := by
  obtain ⟨qs, hqs, hstrict, hchain⟩ := hch.exists_perm hspread
  have hperm' : (ss.filter fun m => m.1 ≠ 1).Perm qs := (hperm.filter _).trans hqs.symm
  have heq : (ss.filter fun m => m.1 ≠ 1) = qs :=
    hperm'.eq_of_pairwise (fun a b _ _ => strideLe_antisymm) (hsorted.filter _)
      (hstrict.imp fun h => by simp [strideLe, h])
  rw [heq]
  exact nested_of_isChain (fun m _ => one_dvd _) hchain

/-- The modes of the result are the gaps, coalesced. -/
theorem complement_hasModes (hs : Denotes S n s) (hd : Denotes D m d)
    (hspread : Spread ((modes s d).filter fun m => m.1 ≠ 1)) (hch : Chained (modes s d))
    (ht : 0 < total) :
    ∃ c ss, complement ⟨⟨S⟩, ⟨D⟩⟩ total = some c ∧ HasModes c (coalesced (gaps total 1 ss)) ∧
      ((modes s d).filter fun m => m.1 ≠ 1).Perm ss ∧ Nested 1 ss := by
  obtain ⟨fs, fd, pairs, r, zs, ms, hfs, hfd, hzip, hpairs, hr, hrd, hperm, hsorted⟩ :=
    sorted_modes hs hd
  have hn := nested_of_sorted hperm hsorted hspread hch
  have hspread' : Spread (ms.filter fun m => m.1 ≠ 1) := fun m hm =>
    hspread m ((hperm.filter _).mem_iff.mp hm)
  obtain ⟨es, hes, hall⟩ := Denotes.elems hrd
  rw [forall₂_map_right_iff] at hall
  have hlen : r.len = some ms.length := by simpa using hrd.len
  obtain ⟨gs, cur, hrun, hcur, hgs, hgaps⟩ := foldlM_complementStep (k := ms.length + 1)
    (hall.imp fun _ _ h => h.1) hspread' one_pos hn
    (show ([] : List Mode).length + ms.length < ms.length + 1 by simp)
  rw [nil_append] at hrun
  have hes' : r.elems = some es := hes
  have hstart : (numElems (ms.length + 1), numElems (ms.length + 1), 0, (1 : ℤ))
      = gapState (ms.length + 1) [] 1 := by
    simp [gapState, filled, numElems]
  have hunk := unknownValue_neg
  have hlast : (if total = unknownValue then unknownValue else ceildiv total cur)
      = -(-total / cur) := by
    rw [if_neg (by omega), ceildiv, floordiv_of_pos hcur]
  have hpos := positive_gaps one_pos ht hspread' hn
  have hstr := le_stride_gaps total hspread' hn
  have hmin := minimumValue_neg
  have hext : gs.map Prod.fst ++ [-(-total / cur)]
      = (gaps total 1 (ms.filter fun m => m.1 ≠ 1)).map Prod.fst := by rw [hgaps]; simp
  have hstrides : gs.map Prod.snd ++ [cur]
      = (gaps total 1 (ms.filter fun m => m.1 ≠ 1)).map Prod.snd := by rw [hgaps]; simp
  obtain ⟨x, y, k, hx, hy, hyd⟩ := setLen_filled (k := ms.length + 1) (v := -(-total / cur))
    (show (gs.map Prod.fst).length < ms.length + 1 by simp; omega) (fun u hu => by
      rw [hext] at hu
      obtain ⟨g, hg, rfl⟩ := mem_map.mp hu
      have := hpos g hg
      omega)
  obtain ⟨x', y', k', hx', hy', hyd'⟩ := setLen_filled (k := ms.length + 1) (v := cur)
    (show (gs.map Prod.snd).length < ms.length + 1 by simp; omega) (fun u hu => by
      rw [hstrides] at hu
      obtain ⟨g, hg, rfl⟩ := mem_map.mp hu
      have := hstr g hg
      omega)
  rw [length_map] at hx hy hx' hy'
  rw [hext] at hyd
  rw [hstrides] at hyd'
  obtain ⟨c, hc', hmodes⟩ := coalesce_flat hyd hyd' (admissible_ofLeaves hpos fun g hg => by
    have := hstr g hg
    omega)
  rw [modes_ofLeaves] at hmodes
  have hinit : init ⟨y⟩ ⟨y'⟩ = some ⟨⟨y⟩, ⟨y'⟩⟩ := by
    refine init_of_len hyd'.len ?_
    rw [children_ofLeaves, ← hstrides]
    simp
  refine ⟨c, _, ?_, hmodes, (hperm.filter _).symm, hn⟩
  simp only [complement, hfs, hfd, hzip, hpairs, hr, hlen, hes', hstart, hrun,
    Option.bind_eq_bind, Option.bind_some]
  simp only [gapState, hlast, hx, hy, hx', hy', hinit, hc', Option.bind_some]

/-- `l` and `c` add up to each number below the product of their sizes, which is at least
`total`, exactly once; the strides of `c` increase. -/
def Complements (l c : Layout) (total : ℤ) : Prop :=
  ∃ (a b : ℤ) (f g : ℤ → ℤ), l.size = some a ∧ c.size = some b ∧ total ≤ a * b ∧
    (∀ i, 0 ≤ i → i < a → l.call (ofInt i) = some (f i)) ∧
    (∀ j, 0 ≤ j → j < b → c.call (ofInt j) = some (g j)) ∧
    Set.BijOn (fun p : ℤ × ℤ => f p.1 + g p.2) (Set.Ico 0 a ×ˢ Set.Ico 0 b) (Set.Ico 0 (a * b)) ∧
    ∃ ms, c.HasModes ms ∧ ms.Pairwise fun m n => m.2 < n.2

end Complement

end Layout
