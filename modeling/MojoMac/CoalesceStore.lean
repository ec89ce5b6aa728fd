/-
The store that the loop of `coalesce` builds for a shape.

The first run of modes stands in its slot.  Every later run starts as a sub-tuple of one
integer; when a mode joins it, the slot is overwritten and the two words of the sub-tuple stay
behind.  A copy of the tuple takes the words that are referred to from the front, so it loses
its last sub-tuple exactly when words were left behind in front of it.

* `shapeStore` — the store for given runs, `shapeStore_join` and `shapeStore_break` its steps;
* `denotes_shapeStore` — it denotes the extents of the runs;
* `nestable_shapeStore` — when no run of several modes comes before a run of one, the copy
  denotes them, too;
* `exists_get_eq_none` — otherwise some element of the copy cannot be read.
-/
import MojoMac.ContiguousRuns
import MojoMac.IntTupleBuild

open MixedRadix List

namespace IntTuple

open Nest IntArray

/-! ### The store -/

/-- The entry of a run whose sub-tuple is at `o`. -/
def runEntry (o : ℕ) (g : List Mode) : Entry :=
  if g.length = 1 then Entry.nested o [some 1, some (merged g).1] else Entry.direct (merged g).1

def runEntries : ℕ → List (List Mode) → List Entry
  | _, [] => []
  | o, g :: gs => runEntry o g :: runEntries (o + 2) gs

attribute [local simp] runEntries

variable (gs : List (List Mode))

/-- The sub-tuples that runs start with. -/
def runData : IntArray :=
  gs.flatMap fun g => [some 1, some (g.headD (1, 0)).1]

def shapeEntries : List (List Mode) → List Entry
  | [] => [Entry.direct 1]
  | g :: gs => Entry.direct (merged g).1 :: runEntries (gs.length + 2) gs

/-- The words of the shape after the given runs. -/
def shapeStore : IntArray :=
  assemble (shapeEntries gs) (runData gs.tail)

theorem runEntries_length (o : ℕ) (gs : List (List Mode)) : (runEntries o gs).length = gs.length := by
  induction gs generalizing o with
  | nil => rfl
  | cons g gs ih => simp [ih]

theorem runEntries_append (o : ℕ) (gs hs : List (List Mode)) :
    runEntries o (gs ++ hs) = runEntries o gs ++ runEntries (o + 2 * gs.length) hs := by
  induction gs generalizing o with
  | nil => simp
  | cons g gs ih =>
    simp only [cons_append, runEntries, ih, length_cons]
    rw [show o + 2 + 2 * gs.length = o + 2 * (gs.length + 1) by ring]

theorem runEntries_shift (o : ℕ) (gs : List (List Mode)) :
    (runEntries o gs).map (Entry.shift 1) = runEntries (o + 1) gs := by
  induction gs generalizing o with
  | nil => rfl
  | cons g gs ih =>
    rw [runEntries, map_cons, ih, runEntries, runEntry, runEntry,
      show o + 2 + 1 = o + 1 + 2 by ring]
    split <;> rfl

theorem runData_length : (runData gs).length = 2 * gs.length := by
  simp [runData, length_flatMap, mul_comm]

theorem runData_append (gs hs : List (List Mode)) : runData (gs ++ hs) = runData gs ++ runData hs :=
  flatMap_append

theorem shapeEntries_length : (shapeEntries gs).length = (mergedAll gs).length := by
  cases gs with
  | nil => rfl
  | cons g gs => simp [shapeEntries, runEntries_length, mergedAll]

theorem shapeEntries_concat (g0 g : List Mode) (gs : List (List Mode)) :
    shapeEntries (g0 :: gs ++ [g]) = (Entry.direct (merged g0).1 :: runEntries (gs.length + 3) gs)
        ++ [runEntry (gs.length + 3 + 2 * gs.length) g] := by
  rw [cons_append, shapeEntries, length_append, length_singleton, runEntries_append]
  rfl

/-! ### Steps -/

theorem assemble_set (es : List Entry) (data : IntArray) {i : ℕ} (hi : i < es.length) (v : ℤ) :
    (assemble es data).set (i + 1) (some v) = assemble (es.set i (Entry.direct v)) data := by
  have hwords : ∀ (pos : ℕ) (es : List Entry) (i : ℕ),
      (entryWords pos es).set i (some v) = entryWords pos (es.set i (Entry.direct v)) := by
    intro pos es
    induction es generalizing pos with
    | nil => simp [entryWords]
    | cons e es ih =>
      intro i
      cases i with
      | zero => simp [entryWords, Entry.word]
      | succ i => simp [entryWords, ih]
  rw [assemble, cons_append, set_cons_succ,
    set_append_left _ _ (by rwa [entryWords_length]), hwords, assemble, length_set]
  rfl

theorem setLast_append {α : Type} (xs : List α) (x y : α) :
    (xs ++ [x]).set xs.length y = xs ++ [y] := by
  rw [set_append_right _ _ le_rfl, Nat.sub_self, set_cons_zero]

/-- A mode joins the last run: its slot is overwritten. -/
theorem shapeStore_join {g : List Mode} (hg : g ≠ []) (m : Mode) :
    (shapeStore (gs ++ [g])).set (gs.length + 1) (some ((merged g).1 * m.1))
      = shapeStore (gs ++ [g ++ [m]]) := by
  have hext : (merged g).1 * m.1 = (merged (g ++ [m])).1 := by rw [merged_concat hg]
  have hhead : (g ++ [m]).headD (1, 0) = g.headD (1, 0) := by
    cases g with
    | nil => exact absurd rfl hg
    | cons n g => rfl
  have hlong : (g ++ [m]).length ≠ 1 := by
    simp
    omega
  have hlen : gs.length < (shapeEntries (gs ++ [g])).length := by
    rw [shapeEntries_length]
    simp [mergedAll]
  rw [shapeStore, assemble_set _ _ hlen, hext, shapeStore]
  cases gs with
  | nil => simp [shapeEntries, runData]
  | cons g0 gs =>
    have hset := setLast_append (Entry.direct (merged g0).1 :: runEntries (gs.length + 3) gs)
      (runEntry (gs.length + 3 + 2 * gs.length) g) (Entry.direct (merged (g ++ [m])).1)
    rw [length_cons, runEntries_length] at hset
    have hentry : runEntry (gs.length + 3 + 2 * gs.length) (g ++ [m])
        = Entry.direct (merged (g ++ [m])).1 := by rw [runEntry, if_neg hlong]
    have hdata : runData (g0 :: gs ++ [g ++ [m]]).tail = runData (g0 :: gs ++ [g]).tail := by
      rw [cons_append, cons_append, tail_cons, tail_cons, runData_append, runData_append]
      simp only [runData, flatMap_cons, flatMap_nil, hhead]
    rw [shapeEntries_concat, shapeEntries_concat, length_cons, hset, hentry, hdata]

/-- A mode starts a new run: it is appended as a tuple of one integer. -/
theorem shapeStore_break (g0 : List Mode) (gs : List (List Mode)) (m : Mode)
    (hin : ∀ e ∈ shapeEntries (g0 :: gs), e.Inside (runData gs) ((shapeEntries (g0 :: gs)).length + 1)) :
    (IntTuple.mk (shapeStore (g0 :: gs))).append [ofInt m.1]
      = some ⟨shapeStore (g0 :: gs ++ [[m]])⟩ := by
  have happ := append_assemble hin (show [(ofInt m.1, 2)] ≠ [] by simp)
  have hlen : (shapeEntries (g0 :: gs)).length = gs.length + 1 := by
    simp [shapeEntries, runEntries_length]
  have hshift : (shapeEntries (g0 :: gs)).map (Entry.shift 1)
      = Entry.direct (merged g0).1 :: runEntries (gs.length + 3) gs := by
    rw [shapeEntries, map_cons, runEntries_shift]
    rfl
  have hnew : placed ((shapeEntries (g0 :: gs)).length + [(ofInt m.1, 2)].length + 1
      + (runData gs).length) (tuples [(ofInt m.1, 2)])
      = [runEntry (gs.length + 3 + 2 * gs.length) [m]] := by
    rw [hlen, runData_length]
    simp [tuples, placed, Item.entry, runEntry, merged_singleton, ofInt]
  have hdata : runData gs ++ dataOf (tuples [(ofInt m.1, 2)]) = runData (gs ++ [[m]]) := by
    rw [runData_append]
    rfl
  rw [hnew, hdata, length_singleton, hshift] at happ
  rw [shapeStore, tail_cons, shapeStore, shapeEntries_concat]
  exact happ

/-! ### What it denotes -/

variable {gs : List (List Mode)} {a : IntArray}

section Denotes

variable (hpos : ∀ g ∈ gs, Positive g)
include hpos

theorem inside_runEntries (base : ℕ) (d more : IntArray) :
    ∀ e ∈ runEntries (base + d.length) gs, e.Inside (d ++ runData gs ++ more) base := by
  induction gs generalizing d with
  | nil =>
    intro e he
    exact absurd he not_mem_nil
  | cons g gs ih =>
    intro e he
    have hmin := minimumValue_neg
    have hg := merged_pos (hpos g (by simp))
    rcases mem_cons.mp he with rfl | he
    · rw [runEntry]
      split_ifs with hone
      · obtain ⟨m, rfl⟩ := length_eq_one_iff.mp hone
        refine ⟨d, runData gs ++ more, ?_, rfl⟩
        simp [runData, merged_singleton]
      · exact (by omega : minimumValue ≤ (merged g).1)
    · have hin := ih (fun g' hg' => hpos g' (by simp [hg']))
        (d ++ [some 1, some (g.headD (1, 0)).1]) e (by simpa [Nat.add_assoc] using he)
      simpa [runData] using hin

theorem inside_shapeEntries :
    ∀ e ∈ shapeEntries gs, e.Inside (runData gs.tail) ((shapeEntries gs).length + 1) := by
  have hmin := minimumValue_neg
  cases gs with
  | nil =>
    intro e he
    rw [mem_singleton.mp he]
    exact (by omega : minimumValue ≤ 1)
  | cons g gs =>
    have hlen : (shapeEntries (g :: gs)).length + 1 = gs.length + 2 := by
      simp [shapeEntries, runEntries_length]
    have hg := merged_pos (hpos g (by simp))
    rw [hlen]
    intro e he
    rcases mem_cons.mp he with rfl | he
    · exact (by omega : minimumValue ≤ (merged g).1)
    · have hin := inside_runEntries (fun h hh => hpos h (mem_cons_of_mem g hh))
        (gs.length + 2) [] [] e (by simpa using he)
      simpa using hin

theorem forall₂_runEntries (o : ℕ) :
    List.Forall₂ Entry.Denotes (runEntries o gs) (gs.map fun g => leaf (merged g).1) := by
  induction gs generalizing o with
  | nil => exact Forall₂.nil
  | cons g gs ih =>
    have hmin := minimumValue_neg
    have hg := merged_pos (hpos g (by simp))
    refine Forall₂.cons ?_ (ih (fun g' hg' => hpos g' (by simp [hg'])) _)
    rw [runEntry]
    split
    · exact exact_ofInt (by omega)
    · rfl

/-- Entries that denote the extents of runs make a store that denotes them. -/
theorem denotes_of_lays (lays : Lays a (shapeEntries gs)) :
    Denotes a (words (shapeEntries gs)) (ofLeaves ((mergedAll gs).map Prod.fst)) := by
  cases gs with
  | nil => exact Denotes.leaf lays
  | cons g gs =>
    cases gs with
    | nil => exact Denotes.leaf lays
    | cons g' gs =>
      refine denotes_node lays ?_ ?_
      · rintro ⟨v, hv⟩
        simp [shapeEntries] at hv
      have hrest := forall₂_runEntries (fun h hh => hpos h (mem_cons_of_mem g hh))
        ((g' :: gs).length + 2)
      simpa [shapeEntries, mergedAll, Function.comp_def] using
        Forall₂.cons (show Entry.Denotes (Entry.direct (merged g).1) (leaf (merged g).1) from rfl)
          hrest

/-- The store denotes the extents of the runs. -/
theorem denotes_shapeStore :
    Denotes (shapeStore gs) (words (shapeEntries gs)) (ofLeaves ((mergedAll gs).map Prod.fst)) :=
  denotes_of_lays hpos (lays_assemble _ _ (inside_shapeEntries hpos))

end Denotes

/-! ### Copies -/

/-- No run of several modes comes before a run of one; the first run does not count. -/
def Fits (gs : List (List Mode)) : Prop :=
  gs.tail.Pairwise fun g h => 1 < g.length → 1 < h.length

instance (gs : List (List Mode)) : Decidable (Fits gs) :=
  inferInstanceAs (Decidable (List.Pairwise _ _))

theorem sum_words_runEntries (o : ℕ) (gs : List (List Mode)) :
    ((runEntries o gs).map Entry.words).sum = 2 * gs.countP fun g => g.length = 1 := by
  induction gs generalizing o with
  | nil => rfl
  | cons g gs ih =>
    rw [runEntries, map_cons, sum_cons, ih, runEntry, countP_cons]
    by_cases hone : g.length = 1
    · simp [hone, Entry.words]
      omega
    · simp [hone, Entry.words]

theorem words_shapeEntries (g : List Mode) (gs : List (List Mode)) :
    words (shapeEntries (g :: gs)) = gs.length + 2 + 2 * gs.countP fun g => g.length = 1 := by
  rw [words, shapeEntries, map_cons, sum_cons, sum_words_runEntries]
  simp [runEntries_length, Entry.words]
  omega

theorem words_le_length (gs : List (List Mode)) :
    words (shapeEntries gs) ≤ (shapeStore gs).length := by
  cases gs with
  | nil => exact le_rfl
  | cons g gs =>
    have hcount : gs.countP (fun g => g.length = 1) ≤ gs.length := countP_le_length
    rw [words_shapeEntries, shapeStore, assemble, length_append, length_cons, entryWords_length,
      tail_cons, runData_length, shapeEntries, length_cons, runEntries_length]
    omega

/-- Runs of one first, runs of several modes last. -/
theorem exists_split_of_pairwise (hne : ∀ g ∈ gs, g ≠ [])
    (h : gs.Pairwise fun g h => 1 < g.length → 1 < h.length) :
    ∃ hs ks, gs = hs ++ ks ∧ (∀ g ∈ hs, g.length = 1) ∧ ∀ g ∈ ks, g.length ≠ 1 := by
  induction h with
  | nil => exact ⟨[], [], rfl, by simp, by simp⟩
  | @cons g gs hg _ ih =>
    by_cases hone : g.length = 1
    · obtain ⟨hs, ks, rfl, h1, h2⟩ := ih fun g' hg' => hne g' (by simp [hg'])
      refine ⟨g :: hs, ks, rfl, ?_, h2⟩
      intro g' hg'
      rcases mem_cons.mp hg' with rfl | hg'
      · exact hone
      · exact h1 g' hg'
    · have hpos := length_pos_iff.mpr (hne g (by simp))
      refine ⟨[], g :: gs, rfl, by simp, ?_⟩
      intro g' hg'
      rcases mem_cons.mp hg' with rfl | hg'
      · exact hone
      · have := hg g' hg' (by omega)
        omega

theorem mem_runEntries_long {o : ℕ} (hlong : ∀ g ∈ gs, g.length ≠ 1) {e : Entry}
    (he : e ∈ runEntries o gs) : ∃ g ∈ gs, e = Entry.direct (merged g).1 := by
  induction gs generalizing o with
  | nil => exact absurd he not_mem_nil
  | cons g gs ih =>
    rcases mem_cons.mp he with rfl | he
    · exact ⟨g, by simp, by rw [runEntry, if_neg (hlong g (by simp))]⟩
    · obtain ⟨h, hh, rfl⟩ := ih (fun h hh => hlong h (by simp [hh])) he
      exact ⟨h, by simp [hh], rfl⟩

/-- A shape that fits can be put into another tuple. -/
theorem nestable_shapeStore (hpos : ∀ g ∈ gs, Positive g) (hne : ∀ g ∈ gs, g ≠ []) (h : Fits gs) :
    Nestable (shapeStore gs) (words (shapeEntries gs)) (ofLeaves ((mergedAll gs).map Prod.fst)) := by
  cases gs with
  | nil => exact ⟨le_rfl, denotes_shapeStore hpos⟩
  | cons g gs =>
    obtain ⟨hs, ks, rfl, h1, h2⟩ := exists_split_of_pairwise
      (fun h hh => hne h (mem_cons_of_mem g hh)) h
    have hcount : (hs ++ ks).countP (fun g => g.length = 1) = hs.length := by
      rw [countP_append, countP_eq_length.mpr (by simpa using h1),
        countP_eq_zero.mpr (by simpa using h2), Nat.add_zero]
    -- the words behind the runs of one are left out
    have hsplit : shapeStore (g :: (hs ++ ks))
        = assemble (shapeEntries (g :: (hs ++ ks))) (runData hs) ++ runData ks := by
      rw [shapeStore, tail_cons, runData_append, assemble, assemble, append_assoc]
    have hlen : (assemble (shapeEntries (g :: (hs ++ ks))) (runData hs)).length
        = words (shapeEntries (g :: (hs ++ ks))) := by
      rw [words_shapeEntries, hcount]
      simp [assemble, entryWords_length, shapeEntries, runEntries_length, runData_length]
      omega
    refine ⟨?_, ?_⟩
    · rw [hsplit, length_append, hlen]
      omega
    rw [hsplit, ← hlen, take_left, hlen]
    refine denotes_of_lays hpos (lays_assemble _ _ ?_)
    have hmin := minimumValue_neg
    have hext : ∀ k ∈ g :: (hs ++ ks), minimumValue ≤ (merged k).1 := by
      intro k hk
      have := merged_pos (hpos k hk)
      omega
    intro e he
    rcases mem_cons.mp he with rfl | he
    · exact hext g (by simp)
    rw [runEntries_append] at he
    rcases mem_append.mp he with he | he
    · have hhs : ∀ h ∈ hs, Positive h := fun h hh => hpos h (by simp [hh])
      have hin := inside_runEntries hhs ((hs ++ ks).length + 2) [] [] e (by simpa using he)
      simpa [shapeEntries, runEntries_length] using hin
    · -- a run of several modes stands in its slot
      obtain ⟨k, hk, rfl⟩ := mem_runEntries_long h2 he
      exact hext k (by simp [hk])

/-- Otherwise the last run of one has runs of several modes before it. -/
theorem exists_last_single (hne : ∀ g ∈ gs, g ≠ [])
    (h : ¬ gs.Pairwise fun g h => 1 < g.length → 1 < h.length) :
    ∃ j, ∃ g, gs[j]? = some g ∧ g.length = 1 ∧ gs.countP (fun g => g.length = 1) ≤ j ∧ 1 ≤ j := by
  induction gs using reverseRecOn with
  | nil => exact absurd Pairwise.nil h
  | append_singleton gs g ih =>
    have hsmall : gs.countP (fun g => g.length = 1) ≤ gs.length := countP_le_length
    by_cases hone : g.length = 1
    · -- the last run is a run of one, and not all runs are
      have hlt : gs.countP (fun g => g.length = 1) < gs.length := by
        refine lt_of_le_of_ne hsmall fun hall => h ?_
        have hall' : ∀ k ∈ gs ++ [g], k.length = 1 := by
          intro k hk
          rcases mem_append.mp hk with hk | hk
          · simpa using countP_eq_length.mp hall k hk
          · rw [mem_singleton.mp hk]
            exact hone
        refine pairwise_of_forall_mem_list fun a ha b _ hlt => ?_
        have := hall' a ha
        omega
      have hcount : (gs ++ [g]).countP (fun g => g.length = 1)
          = gs.countP (fun g => g.length = 1) + 1 := by
        rw [countP_append, countP_singleton, if_pos (by simpa using hone)]
      exact ⟨gs.length, g, by simp, hone, by omega, by omega⟩
    · have hpair : ¬ gs.Pairwise fun g h => 1 < g.length → 1 < h.length := by
        intro hp
        refine h (pairwise_append.mpr ⟨hp, pairwise_singleton _ _, fun a _ b hb _ => ?_⟩)
        rw [mem_singleton.mp hb]
        have hpos := length_pos_iff.mpr (hne g (by simp))
        omega
      obtain ⟨j, k, hk, hk1, hcount, hj⟩ := ih (fun k hk => hne k (by simp [hk])) hpair
      have hlt := (List.getElem_of_getElem? hk).1
      exact ⟨j, k, by rw [getElem?_append_left hlt, hk], hk1, by simpa [hone] using hcount, hj⟩

theorem runEntries_getElem? (o : ℕ) (gs : List (List Mode)) (j : ℕ) :
    (runEntries o gs)[j]? = gs[j]?.map fun g => runEntry (o + 2 * j) g := by
  induction gs generalizing o j with
  | nil => simp
  | cons g gs ih =>
    cases j with
    | zero => simp
    | succ j =>
      rw [runEntries, getElem?_cons_succ, ih, getElem?_cons_succ,
        show o + 2 + 2 * j = o + 2 * (j + 1) by ring]

/-- A slot that points behind the words of the store. -/
theorem get_eq_none {i o len : ℕ} {w : IntArray}
    (hlen : (IntTuple.mk a).len = some len) (hi : i < len) (ho : i + 1 < o)
    (hread : a.getitem (i + 1) = some (Entry.word (i + 1) (Entry.nested o w)))
    (hout : a.length ≤ o) : (IntTuple.mk a).get i = none := by
  have hlt : ¬ minimumValue ≤ Entry.word (i + 1) (Entry.nested o w) :=
    not_le.mpr (word_nested_lt ho)
  have hcalc : calculateTupleSize a.length a o = none := by
    cases hl : a.length with
    | zero => rfl
    | succ k =>
      have hnone : a.getitem o = none := by simp [IntArray.getitem, getElem?_eq_none hout]
      simp [calculateTupleSize, hnone]
  simp only [IntTuple.get, hlen, Option.bind_eq_bind, Option.bind_some, if_pos hi, uncheckedGet,
    hread, if_neg hlt, subOffset_word, Int.toNat_natCast, size, hcalc, Option.bind_none]

/-- Of a shape that does not fit the copy has an element that cannot be read. -/
theorem exists_get_eq_none (hpos : ∀ g ∈ gs, Positive g) (hne : ∀ g ∈ gs, g ≠ []) (h : ¬ Fits gs) :
    3 ≤ gs.length ∧
    (IntTuple.mk ((shapeStore gs).take (words (shapeEntries gs)))).len = some gs.length ∧
      ∃ i < gs.length,
        (IntTuple.mk ((shapeStore gs).take (words (shapeEntries gs)))).get i = none := by
  cases gs with
  | nil => exact absurd Pairwise.nil h
  | cons g0 gs =>
    obtain ⟨j, g, hg, hone, hcount, hj⟩ :=
      exists_last_single (fun k hk => hne k (mem_cons_of_mem g0 hk)) h
    have hjlt : j < gs.length := (List.getElem_of_getElem? hg).1
    have hwords := words_shapeEntries g0 gs
    have hentries : (shapeEntries (g0 :: gs)).length = gs.length + 1 := by
      simp [shapeEntries, runEntries_length]
    have hlays := lays_assemble _ _ (inside_shapeEntries hpos)
    have hlen : (IntTuple.mk ((shapeStore (g0 :: gs)).take (words (shapeEntries (g0 :: gs))))).len
        = some (g0 :: gs).length := by
      rw [IntTuple.len, getitem_take (by omega)]
      have hheader := hlays.header
      rw [hentries] at hheader
      rw [shapeStore, hheader]
      rfl
    refine ⟨by simp; omega, hlen, j + 1, by simpa using hjlt, ?_⟩
    have hslot : (shapeEntries (g0 :: gs))[j + 1]?
        = some (Entry.nested (gs.length + 2 + 2 * j) [some 1, some (merged g).1]) := by
      rw [shapeEntries, getElem?_cons_succ, runEntries_getElem?, hg]
      simp [runEntry, hone]
    refine get_eq_none hlen (by simpa using hjlt) (o := gs.length + 2 + 2 * j)
      (w := [some 1, some (merged g).1]) (by omega) ?_ ?_
    · rw [getitem_take (by omega)]
      exact (hlays.slot _ _ hslot).1
    · rw [length_take]
      omega

end IntTuple
