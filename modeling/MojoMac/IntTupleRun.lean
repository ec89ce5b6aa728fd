/-
Sequences of operations on integer tuples.

A program works on a pool of tuples.  The same program works on a pool of nested lists, in
which a one-element list of an integer counts as that integer (`pack`).

* `compact_nestable` — what has to hold of a store before it is put into another one: the
  words that `_calculate_tuple_size` counts, taken from the start, hold all of its
  sub-tuples.  In-place replacement of a sub-tuple can break it;
* `isEqual_spec` — comparing two tuples, as long as no integer in a slot faces a sub-tuple
  that the comparison misreads (`Faces`);
* `run_agrees` — after every run whose steps are sound, every store in the pool
  agrees with its nested list in length, at every path, when flattened and in comparisons.
-/
import MojoMac.IntTupleBuild

open Nest IntArray List

/-! ### Nested lists -/

namespace Nest

/-- A list as an element of another one. -/
def pack : List Nest → Nest
  | [leaf v] => leaf v
  | ts => node ts

mutual

/-- Every one-element tuple of an integer replaced by that integer. -/
def collapse : Nest → Nest
  | leaf v => leaf v
  | node ts => pack (collapseAll ts)

def collapseAll : List Nest → List Nest
  | [] => []
  | t :: ts => collapse t :: collapseAll ts

end

theorem collapseAll_eq (ts : List Nest) : collapseAll ts = ts.map collapse := by
  induction ts with
  | nil => rfl
  | cons t ts ih => simp [collapseAll, ih]

theorem collapse_node (ts : List Nest) : (node ts).collapse = pack (ts.map collapse) := by
  rw [collapse, collapseAll_eq]

theorem collapse_eq_pack (t : Nest) : t.collapse = pack (t.children.map collapse) := by
  cases t with
  | leaf v => rfl
  | node ts => exact collapse_node ts

theorem children_pack (ts : List Nest) : (pack ts).children = ts := by
  unfold pack
  split <;> rfl

theorem children_collapse (t : Nest) : t.collapse.children = t.children.map collapse := by
  rw [collapse_eq_pack, children_pack]

theorem collapse_eq_iff (t u : Nest) :
    t.collapse = u.collapse ↔ t.children.map collapse = u.children.map collapse := by
  constructor
  · intro h
    rw [← children_collapse, ← children_collapse, h]
  · intro h
    rw [collapse_eq_pack, collapse_eq_pack, h]

theorem collapse_ne {t u : Nest} (h : t.children.length ≠ u.children.length) :
    t.collapse ≠ u.collapse := by
  rw [Ne, collapse_eq_iff]
  intro heq
  refine h ?_
  rw [← length_map collapse, heq, length_map]

theorem leaves_pack (ts : List Nest) : (pack ts).leaves = ts.flatMap leaves := by
  unfold pack
  split
  · rfl
  · exact leaves_node _

theorem leaves_collapse (t : Nest) : t.collapse.leaves = t.leaves := by
  induction t using induct with
  | leaf v => rfl
  | node ts ih =>
    rw [collapse_node, leaves_pack, leaves_node, flatMap_map]
    exact flatMap_congr fun t ht => ih t ht

theorem children_extend (t u : Nest) : (t.extend u).children = t.children ++ u.children := by
  unfold extend
  split_ifs with hu ht
  · rw [isEmpty_iff.mp hu, append_nil]
  · rw [isEmpty_iff.mp ht, nil_append]
  · rfl

theorem children_replaceInt (t : Nest) {idx : ℕ} (h : idx < t.children.length) (v : ℤ) :
    (t.replaceInt idx v).children = t.children.set idx (leaf v) := by
  unfold replaceInt
  split_ifs with hone
  · obtain ⟨s, hs⟩ := length_eq_one_iff.mp hone
    obtain rfl : idx = 0 := by omega
    rw [hs]
    rfl
  · rfl

end Nest

namespace IntTuple

/-! ### Stores that can be nested -/

/-- The sub-tuples lie within the words that `_calculate_tuple_size` counts. -/
def compact (t : IntTuple) : Option Bool := do
  let total ← calculateTupleSize t.size t.store 0
  (List.range (← t.len)).allM fun i => do
    let val ← t.store.getitem (i + 1)
    if val < minimumValue then
      let sub := subOffset (i + 1) val
      return decide (sub + (← calculateTupleSize t.size t.store sub.toNat) ≤ total)
    else
      return true

variable {f : ℕ → Option Bool}

theorem allM_eq_true {xs : List ℕ} (h : xs.allM f = some true) : ∀ x ∈ xs, f x = some true := by
  induction xs with
  | nil =>
    intro x hx
    exact absurd hx not_mem_nil
  | cons y xs ih =>
    intro x hx
    cases hf : f y with
    | none => simp [allM, hf] at h
    | some b =>
      cases b with
      | false => simp [allM, hf] at h
      | true =>
        simp only [allM, hf, some_bind] at h
        rcases mem_cons.mp hx with rfl | hx
        · exact hf
        · exact ih h x hx

variable {n : ℕ}

theorem exists_allM_range {p : ℕ → Prop} (h : ∀ i < n, ∃ r, f i = some r ∧ (r = true ↔ p i)) :
    ∃ r, (range n).allM f = some r ∧ (r = true ↔ ∀ i < n, p i) := by
  have hgen : ∀ xs : List ℕ, (∀ i ∈ xs, i < n) →
      ∃ r, xs.allM f = some r ∧ (r = true ↔ ∀ i ∈ xs, p i) := by
    intro xs
    induction xs with
    | nil => exact fun _ => ⟨true, rfl, by simp⟩
    | cons x xs ih =>
      intro hx
      obtain ⟨r, hr, hp⟩ := h x (hx x (by simp))
      cases r with
      | false => exact ⟨false, by simp [allM, hr], by simpa using fun hpx => absurd (hp.mpr hpx) (by simp)⟩
      | true =>
        obtain ⟨r', hr', hp'⟩ := ih fun i hi => hx i (by simp [hi])
        refine ⟨r', by simp [allM, hr, hr'], ?_⟩
        simp [hp', hp.mp rfl]
  obtain ⟨r, hr, hp⟩ := hgen (range n) fun i hi => mem_range.mp hi
  exact ⟨r, hr, by simpa using hp⟩

variable {a : IntArray} {t : Nest}

/-- A compact store can be put into another one. -/
theorem compact_nestable (h : Denotes a n t)
    (hn : n ≤ a.length) (hc : (IntTuple.mk a).compact = some true) : Nestable a n t := by
  obtain ⟨es, lays, hes, rfl, hleaf, hnode⟩ := h.exists_entries
  have hlen : t.children.length = es.length := hes.length_eq.symm
  have htotal := h.calculateTupleSize (le_refl a.length) [] []
  simp only [nil_append, append_nil, length_nil] at htotal
  simp only [compact, size, htotal, h.len, hlen, Option.bind_eq_bind, Option.bind_some] at hc
  -- every window ends inside of the counted words
  have hend : ∀ (i o : ℕ) (w : IntArray), es[i]? = some (Entry.nested o w) →
      o + w.length ≤ words es := by
    intro i o w hi
    have hlt : i < es.length := (List.getElem_of_getElem? hi).1
    have hstep := allM_eq_true hc i (mem_range.mpr hlt)
    obtain ⟨hread, ho, pre, post, hwin, rfl⟩ := lays.slot i _ hi
    obtain ⟨s, -, hw⟩ := exists_denotes hes hi
    have hcalc : IntTuple.calculateTupleSize a.length a pre.length = some (w.length : ℤ) := by
      have hlw : w.length ≤ a.length := by
        rw [hwin]
        simp only [length_append]
        omega
      have := hw.calculateTupleSize hlw pre post
      rwa [← hwin] at this
    have hword := word_nested_lt (w := w) (show i + 1 < pre.length by omega)
    simp only [hread, Option.bind_some, if_pos hword, subOffset_word, Int.toNat_natCast,
      hcalc] at hstep
    simp at hstep
    omega
  have hlays : Lays (a.take (words es)) es := by
    refine ⟨?_, fun i e he => ?_⟩
    · rw [getitem_take (by simp only [words]; omega)]
      exact lays.header
    have hi : i < es.length := (List.getElem_of_getElem? he).1
    obtain ⟨hread, hin⟩ := lays.slot i e he
    refine ⟨by rw [getitem_take (by simp only [words]; omega)]; exact hread, ?_⟩
    cases e with
    | direct v => exact hin
    | nested o w =>
      have hle := hend i o w he
      obtain ⟨ho, pre, post, rfl, rfl⟩ := hin
      refine ⟨ho, pre, post.take (words es - (pre ++ w).length), ?_, rfl⟩
      rw [take_append, take_of_length_le (by simpa using hle)]
  refine ⟨hn, ?_⟩
  cases t with
  | leaf v =>
    obtain rfl := hleaf v rfl
    exact Denotes.leaf hlays
  | node ts => exact denotes_node hlays (hnode ts rfl) hes

/-! ### Comparing -/

/-- No integer in a slot faces a sub-tuple that `is_equal` misreads: on the left it has to be
a tuple of one integer, on the right it may also have any other number of elements than
one. -/
inductive Faces : IntTuple → IntTuple → Prop
  | length {a b : IntTuple} {k l : ℕ} (ha : a.len = some k) (hb : b.len = some l) (h : k ≠ l) :
      Faces a b
  | elements {a b : IntTuple}
      (right : ∀ i f, a.isValueAt i = some true → b.isValueAt i = some false →
        b.get i = some f → f.isValue = some true ∨ f.len ≠ some 1)
      (left : ∀ i e, a.isValueAt i = some false → b.isValueAt i = some true →
        a.get i = some e → e.isValue = some true)
      (both : ∀ i e f, a.isValueAt i = some false → b.isValueAt i = some false →
        a.get i = some e → b.get i = some f → Faces e f) : Faces a b

theorem Denotes.eq_leaf (h : Denotes a n t)
    (hv : (IntTuple.mk a).isValue = some true) : ∃ v, t = Nest.leaf v := by
  cases t with
  | leaf v => exact ⟨v, rfl⟩
  | node ts =>
    rw [h.isValue_node] at hv
    cases hv

/-- Comparing two stores compares the nested lists. -/
theorem isEqual_spec {a b : IntTuple} (hf : Faces a b) {m fuel : ℕ} {u : Nest}
    (ha : Denotes a.store n t) (hb : Denotes b.store m u) (hfuel : a.size ≤ fuel) :
    ∃ r, isEqual fuel a b = some r ∧ (r = true ↔ t.collapse = u.collapse) := by
  induction hf generalizing n m fuel t u with
  | @length a b k l hk hl hne =>
    obtain ⟨fuel, rfl⟩ := ha.exists_fuel hfuel
    refine ⟨false, by simp [isEqual, hk, hl, hne], ?_⟩
    obtain rfl : t.children.length = k := Option.some_inj.mp (ha.len.symm.trans hk)
    obtain rfl : u.children.length = l := Option.some_inj.mp (hb.len.symm.trans hl)
    simpa using collapse_ne hne
  | @elements a b right left both ih =>
    obtain ⟨fuel, rfl⟩ := ha.exists_fuel hfuel
    have hla : a.len = some t.children.length := ha.len
    have hlb : b.len = some u.children.length := hb.len
    by_cases hlen : t.children.length = u.children.length
    · simp only [isEqual, hla, hlb, hlen, some_bind, ne_eq, not_true_eq_false, if_false]
      -- element by element: the answer is whether the collapsed elements agree
      refine (exists_allM_range (p := fun i => ∀ s v, t.children[i]? = some s →
        u.children[i]? = some v → s.collapse = v.collapse) ?_).imp fun r hr =>
          hr.imp_right fun hiff => hiff.trans ?_
      swap
      · rw [collapse_eq_iff]
        constructor
        · intro hall
          refine ext_getElem (by simpa using hlen) fun i h1 h2 => ?_
          simp only [length_map] at h1 h2
          rw [getElem_map, getElem_map]
          exact hall i h2 _ _ (getElem?_eq_getElem h1) (getElem?_eq_getElem h2)
        · intro heq i hi s v hs hv
          have hi' := congrArg (fun l => l[i]?) heq
          simpa [hs, hv] using hi'
      intro i hi
      have hs : t.children[i]? = some t.children[i] := getElem?_eq_getElem (by omega)
      have hv : u.children[i]? = some u.children[i] := getElem?_eq_getElem hi
      have hgoal : (∀ s v, t.children[i]? = some s → u.children[i]? = some v →
          s.collapse = v.collapse) ↔ t.children[i].collapse = u.children[i].collapse := by
        rw [hs, hv]
        simp
      rw [hgoal]
      rcases ha.child hs with ⟨x, hx, -, hax, hvx, -⟩ | ⟨e, hax, hge, he, hlt⟩
      · rcases hb.child hv with ⟨y, hy, -, hby, hvy, -⟩ | ⟨f, hby, hgf, hf, -⟩
        · refine ⟨decide (x = y), by simp [hax, hby, hvx, hvy], ?_⟩
          simp [hx, hy, collapse]
        -- an integer on the left, a sub-tuple on the right
        rcases right i f hax hby hgf with hval | hne
        · obtain ⟨y, hy⟩ := hf.eq_leaf hval
          rw [hy] at hf
          have hone : f.len = some 1 := hf.len
          refine ⟨decide (x = y), by simp [hax, hby, hgf, hone, hvx, hf.isValue_leaf.2.1], ?_⟩
          simp [hx, hy, collapse]
        · have hflen : f.len = some u.children[i].children.length := hf.len
          have hne' : u.children[i].children.length ≠ 1 := by
            intro h1
            exact hne (by rw [hflen, h1])
          refine ⟨false, by simp [hax, hby, hgf, hflen, hne'], ?_⟩
          rw [hx]
          simpa using collapse_ne (t := leaf x) (Ne.symm hne')
      · rcases hb.child hv with ⟨y, hy, -, hby, hvy, -⟩ | ⟨f, hby, hgf, hf, -⟩
        · -- a sub-tuple on the left, which is a tuple of one integer
          obtain ⟨x, hx⟩ := he.eq_leaf (left i e hax hby hge)
          rw [hx] at he
          have hone : e.len = some 1 := he.len
          refine ⟨decide (x = y), by simp [hax, hby, hge, hone, hvy, he.isValue_leaf.2.1], ?_⟩
          simp [hx, hy, collapse]
        · obtain ⟨r, hr, hiff⟩ := ih i e f hax hby hge hgf he hf
            (show e.size ≤ fuel by simp only [size] at hlt hfuel ⊢; omega)
          exact ⟨r, by simp [hax, hby, hge, hgf, hr], hiff⟩
    · refine ⟨false, by simp [isEqual, hla, hlb, hlen], ?_⟩
      simpa using collapse_ne hlen

/-! ### Programs -/

/-- The operations on a pool of tuples.  Those that give a new tuple add it to the pool. -/
inductive Cmd where
  | ints (elements : List ℤ)
  | tuples (elements : List ℕ)
  | append (i : ℕ) (elements : List ℕ)
  | extend (i j : ℕ)
  | replaceEntry (i idx j : ℕ)
  | replaceEntryInt (i idx : ℕ) (intValue : ℤ)
  | get (i idx : ℕ)
  | slice (i : ℕ) (span : Slice)
  | ownedCopy (i : ℕ)
  | flatten (i : ℕ)

def Cmd.exec (pool : List IntTuple) : Cmd → Option (List IntTuple)
  | ints elements => some (pool ++ [ofInts elements])
  | tuples elements => do
    return pool ++ [← ofTuples (← elements.mapM (pool[·]?))]
  | append i elements => do
    return pool.set i (← (← pool[i]?).append (← elements.mapM (pool[·]?)))
  | extend i j => do
    return pool.set i (← (← pool[i]?).extend (← pool[j]?))
  | replaceEntry i idx j => do
    return pool ++ [← (← pool[i]?).replaceEntry idx (← pool[j]?)]
  | replaceEntryInt i idx intValue => do
    return pool.set i (← (← pool[i]?).replaceEntryInt idx intValue)
  | get i idx => do
    return pool ++ [← (← pool[i]?).get idx]
  | slice i span => do
    return pool ++ [← (← pool[i]?).slice span]
  | ownedCopy i => do
    return pool ++ [← (← pool[i]?).ownedCopy]
  | flatten i => do
    return pool ++ [← (← pool[i]?).flatten]

/-- The same operations on nested lists; `none` when a list or an element is missing. -/
def Cmd.onLists (pool : List (List Nest)) : Cmd → Option (List (List Nest))
  | ints elements => some (pool ++ [elements.map Nest.leaf])
  | tuples elements => do
    return pool ++ [(← elements.mapM (pool[·]?)).map pack]
  | append i elements => do
    return pool.set i ((← pool[i]?) ++ (← elements.mapM (pool[·]?)).map pack)
  | extend i j => do
    return pool.set i ((← pool[i]?) ++ (← pool[j]?))
  | replaceEntry i idx j => do
    let xs ← pool[i]?
    let ys ← pool[j]?
    if idx < xs.length then some (pool ++ [xs.set idx (pack ys)]) else none
  | replaceEntryInt i idx intValue => do
    let xs ← pool[i]?
    if idx < xs.length then some (pool.set i (xs.set idx (Nest.leaf intValue))) else none
  | get i idx => do
    return pool ++ [(← (← pool[i]?)[idx]?).children]
  | slice i span => do
    let xs ← pool[i]?
    return pool ++ [(span.positions xs.length).filterMap (xs[·]?)]
  | ownedCopy i => do
    return pool ++ [← pool[i]?]
  | flatten i => do
    return pool ++ [((← pool[i]?).flatMap leaves).map Nest.leaf]

/-- What a step needs: integers that a slot can hold, and compact tuples wherever one tuple
is put into another. -/
def Cmd.Sound (pool : List IntTuple) : Cmd → Prop
  | ints elements => ∀ v ∈ elements, minimumValue ≤ v
  | tuples elements => ∀ j ∈ elements, ∀ t ∈ pool[j]?, t.compact = some true
  | append _ elements => ∀ j ∈ elements, ∀ t ∈ pool[j]?, t.compact = some true
  | replaceEntry _ _ j => ∀ t ∈ pool[j]?, t.compact = some true
  | replaceEntryInt _ _ intValue => minimumValue ≤ intValue
  | _ => True

instance (pool : List IntTuple) (cmd : Cmd) : Decidable (cmd.Sound pool) := by
  cases cmd <;> unfold Cmd.Sound <;> infer_instance

def run (pool : List IntTuple) (cmds : List Cmd) : Option (List IntTuple) :=
  cmds.foldlM Cmd.exec pool

def runOnLists (pool : List (List Nest)) (cmds : List Cmd) : Option (List (List Nest)) :=
  cmds.foldlM Cmd.onLists pool

/-- Every step of a program is sound when its turn comes. -/
def RunSound : List IntTuple → List Cmd → Prop
  | _, [] => True
  | pool, cmd :: cmds => cmd.Sound pool ∧ ∀ next ∈ cmd.exec pool, RunSound next cmds

instance decidableRunSound : ∀ (pool : List IntTuple) (cmds : List Cmd),
    Decidable (RunSound pool cmds)
  | _, [] => isTrue trivial
  | pool, cmd :: cmds =>
    have := fun next => decidableRunSound next cmds
    inferInstanceAs (Decidable (cmd.Sound pool ∧ ∀ next ∈ cmd.exec pool, RunSound next cmds))

/-- The store denotes the nested list. -/
def Means (t : IntTuple) (xs : List Nest) : Prop :=
  ∃ n s, Denotes t.store n s ∧ n ≤ t.size ∧ s.children.map collapse = xs

variable {t : IntTuple}

theorem Exact.means {s : Nest} (h : Exact t s) : Means t (s.children.map collapse) :=
  ⟨_, s, h, le_rfl, rfl⟩

variable {xs : List Nest}

/-- A compact store that denotes a list, as an item of another tuple. -/
theorem Means.item (h : Means t xs) (hc : t.compact = some true) :
    ∃ n s, Nestable t.store n s ∧ s.collapse = pack xs := by
  obtain ⟨n, s, hd, hn, rfl⟩ := h
  exact ⟨n, s, compact_nestable hd hn hc, collapse_eq_pack s⟩

variable {pool : List IntTuple} {spec : List (List Nest)} {ps : List (IntTuple × ℕ)}
  {ts : List Nest}

/-- The compact tuples of a pool, with the words they refer to. -/
theorem exists_items (hpool : Forall₂ Means pool spec) {js : List ℕ} {xss : List (List Nest)}
    (hspec : js.mapM (spec[·]?) = some xss)
    (hc : ∀ j ∈ js, ∀ t ∈ pool[j]?, t.compact = some true) :
    ∃ (ps : List (IntTuple × ℕ)) (ts : List Nest), js.mapM (pool[·]?) = some (ps.map Prod.fst) ∧
      Forall₂ Item.Denotes (IntTuple.tuples ps) ts ∧ ts.map collapse = xss.map pack := by
  induction js generalizing xss with
  | nil =>
    cases hspec
    exact ⟨[], [], rfl, Forall₂.nil, rfl⟩
  | cons j js ih =>
    rw [mapM_cons] at hspec
    simp only [Option.bind_eq_bind, Option.bind_eq_some_iff] at hspec
    obtain ⟨xs, hxs, xss', hxss', hcons⟩ := hspec
    cases hcons
    obtain ⟨hj, rfl⟩ := List.getElem_of_getElem? hxs
    have hj' : j < pool.length := hpool.length_eq ▸ hj
    have ht : pool[j]? = some pool[j] := getElem?_eq_getElem hj'
    have hmeans : Means pool[j] spec[j] := (forall₂_iff_get.mp hpool).2 j hj' hj
    obtain ⟨n, s, hn, hs⟩ := hmeans.item (hc j (by simp) _ ht)
    obtain ⟨ps, ts, hps, hts, hcol⟩ := ih hxss' fun i hi => hc i (by simp [hi])
    refine ⟨(pool[j], n) :: ps, s :: ts, ?_, Forall₂.cons hn hts, by simp [hs, hcol]⟩
    rw [mapM_cons, ht, hps]
    rfl

section Steps

theorem exists_of_getElem? (hpool : Forall₂ Means pool spec) {i : ℕ}
    (hxs : spec[i]? = some xs) : ∃ t, pool[i]? = some t ∧ Means t xs := by
  obtain ⟨hi, rfl⟩ := List.getElem_of_getElem? hxs
  have hi' : i < pool.length := hpool.length_eq ▸ hi
  exact ⟨pool[i], getElem?_eq_getElem hi', (forall₂_iff_get.mp hpool).2 i hi' hi⟩

theorem forall₂_push (hpool : Forall₂ Means pool spec) (h : Means t xs) :
    Forall₂ Means (pool ++ [t]) (spec ++ [xs]) :=
  rel_append hpool (Forall₂.cons h Forall₂.nil)

theorem forall₂_set (hpool : Forall₂ Means pool spec) (i : ℕ) (h : Means t xs) :
    Forall₂ Means (pool.set i t) (spec.set i xs) := by
  induction hpool generalizing i with
  | nil => exact Forall₂.nil
  | cons hx hrest ih =>
    cases i with
    | zero => exact Forall₂.cons h hrest
    | succ i => exact Forall₂.cons hx (ih i)

/-- Items refer to no more words than they have. -/
theorem sum_snd_le (hps : Forall₂ Item.Denotes (IntTuple.tuples ps) ts) :
    (ps.map Prod.snd).sum ≤ (dataOf (IntTuple.tuples ps)).length := by
  induction ps generalizing ts with
  | nil => simp
  | cons p ps ih =>
    cases hps with
    | cons hp hps =>
      have hrest := ih hps
      have hp1 : p.2 ≤ p.1.store.length := hp.1
      simp only [IntTuple.tuples, dataOf, map_cons, sum_cons, flatMap_cons,
        length_append, Item.data] at hrest ⊢
      omega

theorem Means.append (h : Means t xs) (hps : Forall₂ Item.Denotes (IntTuple.tuples ps) ts) :
    ∃ r, t.append (ps.map Prod.fst) = some r ∧ Means r (xs ++ ts.map collapse) := by
  obtain ⟨n, s, hd, hn, rfl⟩ := h
  by_cases hnil : ps = []
  · subst hnil
    obtain rfl : ts = [] := by
      cases hps
      rfl
    exact ⟨t, rfl, n, s, hd, hn, by simp⟩
  · obtain ⟨b, hb, hd', hlen⟩ := append_spec hd hnil hps
    refine ⟨⟨b⟩, hb, _, _, hd', ?_, by simp⟩
    have hle := sum_snd_le hps
    simp only [size] at hn ⊢
    omega

theorem Means.extend {u : IntTuple} {ys : List Nest} (h : Means t xs) (hu : Means u ys) :
    ∃ r, t.extend u = some r ∧ Means r (xs ++ ys) := by
  obtain ⟨n, s, hd, hn, rfl⟩ := h
  obtain ⟨m, v, hv, hm, rfl⟩ := hu
  by_cases hnil : v.children = []
  · refine ⟨t, ?_, n, s, hd, hn, by simp [hnil]⟩
    have hlen : u.len = some 0 := by
      have := hv.len
      rwa [hnil] at this
    simp [IntTuple.extend, hlen]
  · obtain ⟨c, hc, hnest, hlen⟩ := extend_spec hd hv hn hm hnil
    refine ⟨⟨c⟩, hc, _, _, hnest.denotes, hnest.1, ?_⟩
    rw [children_extend, map_append]

theorem Means.getitem (h : Means t xs) {idx : ℕ} {x : Nest} (hx : xs[idx]? = some x) :
    ∃ e, t.get idx = some e ∧ Means e x.children := by
  obtain ⟨n, s, hd, hn, rfl⟩ := h
  rw [getElem?_map] at hx
  obtain ⟨y, hy, rfl⟩ := Option.map_eq_some_iff.mp hx
  obtain ⟨e, he, hex⟩ := hd.getitem hy
  refine ⟨e, he, ?_⟩
  rw [children_collapse]
  exact hex.means

theorem Means.flatten (h : Means t xs) :
    ∃ r n, t.flatten = some r ∧ Denotes r.store n (ofLeaves (xs.flatMap leaves)) ∧ n ≤ r.size := by
  obtain ⟨n, s, hd, hn, rfl⟩ := h
  have hleaves : (s.children.map collapse).flatMap leaves = s.leaves := by
    rw [flatMap_map, ← leaves_children]
    exact flatMap_congr fun u _ => leaves_collapse u
  rw [hleaves]
  rcases flatten_spec hd with ⟨hself, heq⟩ | hints
  · exact ⟨t, n, hself, by rwa [← heq], hn⟩
  · exact ⟨_, _, hints, exact_ofInts hd.minimumValue_le, le_rfl⟩

/-- **One step.**  A sound operation does the same to the stores as to the lists. -/
theorem Cmd.exec_means (hpool : Forall₂ Means pool spec) {cmd : Cmd}
    {spec' : List (List Nest)} (hspec : cmd.onLists spec = some spec') (hsound : cmd.Sound pool) :
    ∃ pool', cmd.exec pool = some pool' ∧ Forall₂ Means pool' spec' := by
  cases cmd <;> simp only [onLists, Option.bind_eq_bind, Option.bind_eq_some_iff] at hspec
  case ints elements =>
    cases hspec
    refine ⟨_, rfl, forall₂_push hpool ?_⟩
    have h := (exact_ofInts hsound).means
    rwa [children_ofLeaves, map_map] at h
  case tuples elements =>
    obtain ⟨xss, hxss, hcons⟩ := hspec
    cases hcons
    obtain ⟨ps, ts, hps, hts, hcol⟩ := exists_items hpool hxss hsound
    obtain ⟨a, ha, hd, hlen⟩ := ofTuples_spec hts
    refine ⟨pool ++ [⟨a⟩], by simp [exec, hps, ha], forall₂_push hpool ?_⟩
    refine ⟨_, _, hd, ?_, by simpa using hcol⟩
    have hle := sum_snd_le hts
    simp only [size, hlen]
    omega
  case append i elements =>
    obtain ⟨xs, hxs, xss, hxss, hcons⟩ := hspec
    cases hcons
    obtain ⟨t, ht, hm⟩ := exists_of_getElem? hpool hxs
    obtain ⟨ps, ts, hps, hts, hcol⟩ := exists_items hpool hxss hsound
    obtain ⟨r, hr, hmr⟩ := hm.append hts
    rw [hcol] at hmr
    exact ⟨_, by simp [exec, ht, hps, hr], forall₂_set hpool i hmr⟩
  case extend i j =>
    obtain ⟨xs, hxs, ys, hys, hcons⟩ := hspec
    cases hcons
    obtain ⟨t, ht, hm⟩ := exists_of_getElem? hpool hxs
    obtain ⟨u, hu, hmu⟩ := exists_of_getElem? hpool hys
    obtain ⟨r, hr, hmr⟩ := hm.extend hmu
    exact ⟨_, by simp [exec, ht, hu, hr], forall₂_set hpool i hmr⟩
  case replaceEntry i idx j =>
    obtain ⟨xs, hxs, ys, hys, hif⟩ := hspec
    split at hif
    · cases hif
      obtain ⟨t, ht, n, s, hd, hn, rfl⟩ := exists_of_getElem? hpool hxs
      obtain ⟨u, hu, hmu⟩ := exists_of_getElem? hpool hys
      obtain ⟨m, v, hv, hcol⟩ := hmu.item (hsound u hu)
      obtain ⟨e, k, he, hk, hle⟩ := replaceEntry_spec idx hd hv
      refine ⟨_, by simp [exec, ht, hu, he], forall₂_push hpool ⟨k, _, hk, hle, ?_⟩⟩
      rw [Nest.replace, children_node, map_set, hcol]
    · cases hif
  case replaceEntryInt i idx intValue =>
    obtain ⟨xs, hxs, hif⟩ := hspec
    split at hif
    · rename_i hidx
      cases hif
      obtain ⟨t, ht, n, s, hd, hn, rfl⟩ := exists_of_getElem? hpool hxs
      rw [length_map] at hidx
      obtain ⟨m, hr, hm, hle⟩ := replaceEntryInt_spec hd hidx hsound
      refine ⟨_, by simp [exec, ht, hr], forall₂_set hpool i ⟨m, _, hm, ?_, ?_⟩⟩
      · simp only [size, length_set] at hn ⊢
        omega
      · rw [children_replaceInt _ hidx, map_set]
        rfl
    · cases hif
  case get i idx =>
    obtain ⟨xs, hxs, x, hx, hcons⟩ := hspec
    cases hcons
    obtain ⟨t, ht, hm⟩ := exists_of_getElem? hpool hxs
    obtain ⟨e, he, hme⟩ := hm.getitem hx
    exact ⟨_, by simp [exec, ht, he], forall₂_push hpool hme⟩
  case slice i span =>
    obtain ⟨xs, hxs, hcons⟩ := hspec
    cases hcons
    obtain ⟨t, ht, n, s, hd, hn, rfl⟩ := exists_of_getElem? hpool hxs
    obtain ⟨e, he, hex⟩ := slice_spec hd span
    refine ⟨_, by simp [exec, ht, he], forall₂_push hpool ⟨_, _, hex, le_rfl, ?_⟩⟩
    rw [select, children_node, length_map, map_filterMap]
    exact filterMap_congr fun p _ => by rw [getElem?_map]
  case ownedCopy i =>
    obtain ⟨xs, hxs, hcons⟩ := hspec
    cases hcons
    obtain ⟨t, ht, hm⟩ := exists_of_getElem? hpool hxs
    exact ⟨_, by simp [exec, ht, ownedCopy_eq], forall₂_push hpool hm⟩
  case flatten i =>
    obtain ⟨xs, hxs, hcons⟩ := hspec
    cases hcons
    obtain ⟨t, ht, hm⟩ := exists_of_getElem? hpool hxs
    obtain ⟨r, n, hr, hd, hn⟩ := hm.flatten
    refine ⟨_, by simp [exec, ht, hr], forall₂_push hpool ⟨n, _, hd, hn, ?_⟩⟩
    rw [children_ofLeaves, map_map]
    rfl

end Steps

/-! ### Runs -/

/-- Reading along a path. -/
def getPath : IntTuple → List ℕ → Option IntTuple
  | t, [] => some t
  | t, i :: path => do getPath (← t.get i) path

def listPath : List Nest → List ℕ → Option (List Nest)
  | xs, [] => some xs
  | xs, i :: path => do listPath (← xs[i]?).children path

/-- At every path, a reader of the store sees the length and the integers of the list that
is there. -/
structure Agrees (t : IntTuple) (xs : List Nest) : Prop where
  index : ∀ path ys, listPath xs path = some ys → ∃ e, getPath t path = some e ∧
    e.len = some ys.length ∧ ∃ r, e.flatten = some r ∧ r.len = some (ys.flatMap leaves).length ∧
      ∀ (i : ℕ) (v : ℤ), (ys.flatMap leaves)[i]? = some v → (r.get i).bind toInt = some v
  missing : ∀ path, listPath xs path = none → getPath t path = none

theorem Means.len (h : Means t xs) : t.len = some xs.length := by
  obtain ⟨n, s, hd, -, rfl⟩ := h
  rw [length_map]
  exact hd.len

theorem Means.agrees (h : Means t xs) : Agrees t xs where
  index := by
    intro path
    induction path generalizing t xs with
    | nil =>
      intro ys hys
      cases hys
      obtain ⟨r, n, hr, hd, -⟩ := h.flatten
      have hlen : r.len = some (ofLeaves (xs.flatMap leaves)).children.length := hd.len
      rw [children_ofLeaves, length_map] at hlen
      refine ⟨t, rfl, h.len, r, hr, hlen, fun i v hv => ?_⟩
      obtain ⟨e, he, hex⟩ := hd.getitem (i := i) (s := leaf v) (by
        rw [children_ofLeaves, getElem?_map, hv]
        rfl)
      have hget : r.get i = some e := he
      rw [hget]
      exact hex.toInt
    | cons i path ih =>
      intro ys hys
      simp only [listPath, Option.bind_eq_bind, Option.bind_eq_some_iff] at hys
      obtain ⟨x, hx, hys⟩ := hys
      obtain ⟨e, he, hme⟩ := h.getitem hx
      obtain ⟨e', he', hrest⟩ := ih hme ys hys
      exact ⟨e', by simp [getPath, he, he'], hrest⟩
  missing := by
    intro path
    induction path generalizing t xs with
    | nil =>
      intro hnone
      cases hnone
    | cons i path ih =>
      intro hnone
      cases hx : xs[i]? with
      | none =>
        have hi : ¬ i < xs.length := by
          rw [getElem?_eq_none_iff] at hx
          omega
        simp [getPath, IntTuple.get, h.len, hi]
      | some x =>
        obtain ⟨e, he, hme⟩ := h.getitem hx
        simp only [listPath, hx, some_bind] at hnone
        simp [getPath, he, ih hme hnone]

theorem run_means {cmds : List Cmd} {lists : List (List Nest)}
    (hpool : Forall₂ Means pool spec) (hlists : runOnLists spec cmds = some lists)
    (hsound : RunSound pool cmds) :
    ∃ pool', run pool cmds = some pool' ∧ Forall₂ Means pool' lists := by
  induction cmds generalizing pool spec with
  | nil =>
    cases hlists
    exact ⟨pool, rfl, hpool⟩
  | cons cmd cmds ih =>
    simp only [runOnLists, foldlM_cons, Option.bind_eq_bind, Option.bind_eq_some_iff] at hlists
    obtain ⟨spec', hspec', hlists⟩ := hlists
    obtain ⟨pool1, hexec, hmeans⟩ := Cmd.exec_means hpool hspec' hsound.1
    obtain ⟨pool2, hrun, hmeans2⟩ := ih hmeans hlists (hsound.2 pool1 hexec)
    refine ⟨pool2, ?_, hmeans2⟩
    simp only [run, foldlM_cons, hexec, some_bind]
    exact hrun

/-- **Stores denote nested lists.**  When every step of a program is sound, it can be carried
out on stores whenever it can be carried out on lists.  Afterwards each store agrees with
its list, and comparing two stores compares their lists. -/
theorem run_agrees (cmds : List Cmd) (lists : List (List Nest))
    (hlists : runOnLists [] cmds = some lists) (hsound : RunSound [] cmds) :
    ∃ pool, run [] cmds = some pool ∧ List.Forall₂ Agrees pool lists ∧
      ∀ (i j : ℕ) (a b : IntTuple) (xs ys : List Nest), pool[i]? = some a → pool[j]? = some b →
        lists[i]? = some xs → lists[j]? = some ys → Faces a b →
        ∃ r, a.eq b = some r ∧ (r = true ↔ xs = ys) := by
  obtain ⟨pool, hrun, hmeans⟩ := run_means Forall₂.nil hlists hsound
  refine ⟨pool, hrun, hmeans.imp fun t xs h => h.agrees, ?_⟩
  intro i j a b xs ys ha hb hxs hys hfaces
  obtain ⟨t, ht, n, s, hs, -, rfl⟩ := exists_of_getElem? hmeans hxs
  obtain ⟨u, hu, m, v, hv, -, rfl⟩ := exists_of_getElem? hmeans hys
  obtain rfl : t = a := Option.some_inj.mp (ht.symm.trans ha)
  obtain rfl : u = b := Option.some_inj.mp (hu.symm.trans hb)
  obtain ⟨r, hr, hiff⟩ := isEqual_spec hfaces hs hv le_rfl
  exact ⟨r, hr, hiff.trans (collapse_eq_iff s v)⟩

/-- A tuple of tuples, one of them replaced in place, which is copied and extended. -/
theorem run_agrees_replaced :
    RunSound [] [.ints [1, 2], .ints [3], .tuples [0, 1], .ownedCopy 2, .replaceEntryInt 2 1 7,
        .tuples [2, 1], .extend 3 2, .flatten 4] ∧
      ∃ pool, run [] [.ints [1, 2], .ints [3], .tuples [0, 1], .ownedCopy 2,
        .replaceEntryInt 2 1 7, .tuples [2, 1], .extend 3 2, .flatten 4] = some pool ∧
        pool.length = 6 := by
  refine ⟨by decide, ?_⟩
  obtain ⟨pool, hrun, hagree, -⟩ := run_agrees [.ints [1, 2], .ints [3], .tuples [0, 1],
    .ownedCopy 2, .replaceEntryInt 2 1 7, .tuples [2, 1], .extend 3 2, .flatten 4] _ rfl (by decide)
  exact ⟨pool, hrun, hagree.length_eq⟩

/-- A sub-tuple replaced in place leaves its words behind.  When the tuple is put into
another one and copied out of it, its second element is cut off.  And a comparison takes
`((7, 8))` for `(7)`. -/
theorem run_cuts_off_element :
    (∃ lists, runOnLists [] [.ints [1, 2], .ints [3, 4], .tuples [0, 1], .replaceEntryInt 2 0 7,
        .tuples [2, 0]] = some lists ∧
      ∀ pool, run [] [.ints [1, 2], .ints [3, 4], .tuples [0, 1], .replaceEntryInt 2 0 7,
        .tuples [2, 0]] = some pool → ¬ List.Forall₂ Agrees pool lists) ∧
    run [] [.ints [7, 8], .tuples [0]] = some [ofInts [7, 8],
      ⟨[some 1, some (-65535), some 2, some 7, some 8]⟩] ∧
    IntTuple.eq ⟨[some 1, some (-65535), some 2, some 7, some 8]⟩ (ofInts [7]) = some true := by
  refine ⟨⟨_, rfl, fun pool hrun hagree => ?_⟩, by decide, by decide⟩
  -- reading the last tuple at its first element's second element fails
  have hread : (run [] [.ints [1, 2], .ints [3, 4], .tuples [0, 1], .replaceEntryInt 2 0 7,
      .tuples [2, 0]]).bind (fun pool => (pool[3]?).bind fun t => getPath t [0, 1]) = none := by
    decide
  rw [hrun, Option.bind_some] at hread
  have hlen : pool.length = 4 := hagree.length_eq
  have hlast := (forall₂_iff_get.mp hagree).2 3 (by omega) (by decide)
  obtain ⟨e, he, -⟩ := hlast.index [0, 1] [leaf 3, leaf 4] rfl
  rw [getElem?_eq_getElem (by omega), Option.bind_some] at hread
  rw [get_eq_getElem, hread] at he
  cases he

end IntTuple
