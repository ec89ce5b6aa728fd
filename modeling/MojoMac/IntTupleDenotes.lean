/-
What a store denotes.

An integer tuple is read as a tree: a tuple of one integer is a leaf, every other tuple a
node.  `Denotes a n t` says that the store `a` holds the tree `t` and refers to `n` words of
its own; more words may lie between or behind them.

* `Denotes.get` — copying an element out gives a store of exactly the words it refers to;
* `Denotes.calculateTupleSize` — the extent computed from the structure is `n`;
* `Denotes.ofTuples`, `Denotes.append` — a tuple can be put into another one when its
  first `n` words are enough to denote it (`Nestable`).
-/
import MojoMac.IntTuple

open List

/-- Nested tuples of integers. -/
inductive Nest where
  | leaf (v : ℤ)
  | node (ts : List Nest)

namespace Nest

/-- Induction over a tree, with a hypothesis for each child. -/
@[elab_as_elim]
theorem induct {motive : Nest → Prop} (leaf : ∀ v, motive (leaf v))
    (node : ∀ ts, (∀ t ∈ ts, motive t) → motive (node ts)) (t : Nest) : motive t := by
  refine @Nest.rec motive (fun ts => ∀ t ∈ ts, motive t) leaf node ?_ ?_ t
  · intro s hs
    exact absurd hs not_mem_nil
  · intro s ts hs hts u hu
    rcases mem_cons.mp hu with rfl | hu
    · exact hs
    · exact hts u hu

/-- The elements of a tuple; an integer is its own only element. -/
def children : Nest → List Nest
  | leaf v => [leaf v]
  | node ts => ts

@[simp] theorem children_leaf (v : ℤ) : (leaf v).children = [leaf v] := rfl

@[simp] theorem children_node (ts : List Nest) : (node ts).children = ts := rfl

/-- All elements of two tuples. -/
def extend (t u : Nest) : Nest :=
  if u.children.isEmpty then t
  else if t.children.isEmpty then u
  else node (t.children ++ u.children)

/-- The elements at the given positions. -/
def select (t : Nest) (ps : List ℕ) : Nest :=
  node (ps.filterMap (t.children[·]?))

/-- An element replaced by a tuple. -/
def replace (t : Nest) (idx : ℕ) (u : Nest) : Nest :=
  node (t.children.set idx u)

/-- An element replaced by an integer. -/
def replaceInt (t : Nest) (idx : ℕ) (v : ℤ) : Nest :=
  if t.children.length = 1 then leaf v else node (t.children.set idx (leaf v))

mutual

/-- The integers of a tree, from left to right. -/
def leaves : Nest → List ℤ
  | leaf v => [v]
  | node ts => leavesAll ts

def leavesAll : List Nest → List ℤ
  | [] => []
  | t :: ts => leaves t ++ leavesAll ts

end

attribute [local simp] leavesAll

theorem leavesAll_eq (ts : List Nest) : leavesAll ts = ts.flatMap leaves := by
  induction ts with
  | nil => rfl
  | cons t ts ih => simp [ih]

@[simp] theorem leaves_leaf (v : ℤ) : (leaf v).leaves = [v] := rfl

@[simp] theorem leaves_node (ts : List Nest) : (node ts).leaves = ts.flatMap leaves :=
  leavesAll_eq ts

/-- A tuple without nesting. -/
def ofLeaves : List ℤ → Nest
  | [v] => leaf v
  | vs => node (vs.map leaf)

theorem children_ofLeaves (vs : List ℤ) : (ofLeaves vs).children = vs.map leaf := by
  unfold ofLeaves
  split <;> rfl

theorem leaves_ofLeaves (vs : List ℤ) : (ofLeaves vs).leaves = vs := by
  unfold ofLeaves
  split
  · rfl
  · simp [flatMap_map]

theorem leaves_children (t : Nest) : t.children.flatMap leaves = t.leaves := by
  cases t with
  | leaf v | node ts => simp [children]

end Nest

open Nest IntArray

/-! ### Loops -/

/-- A counting loop that goes through the states `st 0`, `st 1`, … ends in `st n`. -/
theorem foldlM_range {σ : Type} {f : σ → ℕ → Option σ} (st : ℕ → σ) {n : ℕ}
    (h : ∀ i < n, f (st i) i = some (st (i + 1))) : (range n).foldlM f (st 0) = some (st n) := by
  induction n with
  | zero => rfl
  | succ n ih =>
    rw [range_succ, foldlM_append, ih fun i hi => h i (by omega)]
    simp [h n (by omega)]

/-- A counting loop that keeps an invariant. -/
theorem exists_foldlM_range {σ : Type} {f : σ → ℕ → Option σ} (inv : ℕ → σ → Prop) {n : ℕ}
    {s : σ} (h0 : inv 0 s) (h : ∀ i < n, ∀ s, inv i s → ∃ s', f s i = some s' ∧ inv (i + 1) s') :
    ∃ s', (range n).foldlM f s = some s' ∧ inv n s' := by
  induction n with
  | zero => exact ⟨s, rfl, h0⟩
  | succ n ih =>
    obtain ⟨s1, h1, hinv⟩ := ih fun i hi => h i (by omega)
    obtain ⟨s2, h2, hinv2⟩ := h n (by omega) s1 hinv
    refine ⟨s2, ?_, hinv2⟩
    rw [range_succ, foldlM_append, h1]
    simp [h2]

/-- A loop over related elements that keeps an invariant between its state and the state of
the loop it stands for. -/
theorem exists_foldlM_forall₂ {σ τ α β : Type} {f : σ → α → Option σ} {r : α → β → Prop}
    (inv : σ → τ → Prop) (g : τ → β → τ) {xs : List α} {ys : List β} (h : Forall₂ r xs ys)
    (hstep : ∀ s q x, ∀ y ∈ ys, r x y → inv s q → ∃ s', f s x = some s' ∧ inv s' (g q y))
    {s : σ} {q : τ} (hs : inv s q) : ∃ s', xs.foldlM f s = some s' ∧ inv s' (ys.foldl g q) := by
  induction h generalizing s q with
  | nil => exact ⟨s, rfl, hs⟩
  | @cons x y xs ys hxy _ ih =>
    obtain ⟨s1, h1, hinv⟩ := hstep s q x y (by simp) hxy hs
    obtain ⟨s2, h2, hinv2⟩ := ih (fun s q x y hy => hstep s q x y (by simp [hy])) hinv
    exact ⟨s2, by simp [h1, h2], hinv2⟩

theorem exists_mapM {α β γ : Type} {f : α → Option β} {r : β → γ → Prop} {xs : List α}
    {g : α → γ} (h : ∀ x ∈ xs, ∃ y, f x = some y ∧ r y (g x)) :
    ∃ ys, xs.mapM f = some ys ∧ Forall₂ r ys (xs.map g) := by
  induction xs with
  | nil => exact ⟨[], rfl, Forall₂.nil⟩
  | cons x xs ih =>
    obtain ⟨y, hy, hr⟩ := h x (by simp)
    obtain ⟨ys, hys, hrs⟩ := ih fun z hz => h z (by simp [hz])
    exact ⟨y :: ys, by simp [mapM_cons, hy, hys], Forall₂.cons hr hrs⟩

/-- A counting loop that collects results related to the elements of a list. -/
theorem exists_mapM_range {α β : Type} {f : ℕ → Option α} {r : α → β → Prop} {ys : List β}
    (h : ∀ (i : ℕ) (y : β), ys[i]? = some y → ∃ x, f i = some x ∧ r x y) :
    ∃ xs, (range ys.length).mapM f = some xs ∧ Forall₂ r xs ys := by
  induction ys using reverseRecOn with
  | nil => exact ⟨[], rfl, Forall₂.nil⟩
  | append_singleton ys y ih =>
    obtain ⟨xs, hxs, hall⟩ := ih fun i z hz => h i z (by
      rw [getElem?_append_left (List.getElem_of_getElem? hz).1, hz])
    obtain ⟨x, hx, hr⟩ := h ys.length y (by simp)
    refine ⟨xs ++ [x], ?_, rel_append hall (Forall₂.cons hr Forall₂.nil)⟩
    rw [length_append, length_singleton, range_succ, mapM_append, hxs]
    simp [hx]

/-! ### Words -/

namespace IntArray

variable {a : IntArray}
variable {i : ℕ} {v : ℤ}

theorem getitem_eq_some : a.getitem i = some v ↔ a[i]? = some (some v) := by
  simp [getitem, Option.join_eq_some_iff]

theorem getitem_lt (h : a.getitem i = some v) : i < a.length :=
  (List.getElem_of_getElem? (getitem_eq_some.mp h)).1

theorem getitem_append_left (h : a.getitem i = some v) (b : IntArray) :
    (a ++ b).getitem i = some v := by
  rw [getitem_eq_some] at h ⊢
  rw [getElem?_append_left (getitem_lt (getitem_eq_some.mpr h)), h]

theorem getitem_append_right (pre : IntArray) (i : ℕ) :
    IntArray.getitem (pre ++ a) (pre.length + i) = a.getitem i := by
  rw [getitem, getElem?_append_right (Nat.le_add_right _ _), Nat.add_sub_cancel_left, getitem]

theorem getitem_take {i n : ℕ} (h : i < n) : IntArray.getitem (a.take n) i = a.getitem i := by
  simp [getitem, getElem?_take_of_lt h]

theorem setitem_of_lt (h : i < a.length) (v : ℤ) : a.setitem i v = some (a.set i (some v)) := by
  simp [setitem, h]

theorem copyFrom_all (b : IntArray) : (init b.length).copyFrom 0 b 0 b.length = some b := by
  simp [copyFrom, init]

/-- Copying a window into a fresh array of its size. -/
theorem copyFrom_window (pre w post : IntArray) :
    (init w.length).copyFrom 0 (pre ++ w ++ post) pre.length w.length = some w := by
  simp [copyFrom, init, append_assoc]

end IntArray

namespace IntTuple

variable {s : Nest} {v : ℤ} {i : ℕ} {ts : List Nest} {e : IntTuple}

theorem minimumValue_neg : minimumValue < 0 := by decide

theorem unknownValue_neg : unknownValue < 0 := by decide

/-! ### Slots -/

/-- What a slot stands for: an integer, or the window `w` of words at offset `o`. -/
inductive Entry where
  | direct (v : ℤ)
  | nested (o : ℕ) (w : IntArray)

namespace Entry

/-- The words of the data area an entry refers to. -/
def words : Entry → ℕ
  | direct _ => 0
  | nested _ w => w.length

/-- The word in the slot at position `pos`. -/
def word (pos : ℕ) : Entry → ℤ
  | direct v => v
  | nested o _ => (pos : ℤ) - o + minimumValue

/-- The entry stands in slot `pos` of a store whose data area starts at `base`. -/
def Stored (a : IntArray) (base pos : ℕ) (e : Entry) : Prop :=
  a.getitem pos = some (e.word pos) ∧
  match e with
  | direct v => minimumValue ≤ v
  | nested o w => base ≤ o ∧ ∃ pre post, a = pre ++ w ++ post ∧ pre.length = o

end Entry

/-- The number of words that a tuple with these entries refers to. -/
def words (es : List Entry) : ℕ :=
  1 + es.length + (es.map Entry.words).sum

/-- The header and the slots of a store hold the given entries. -/
structure Lays (a : IntArray) (es : List Entry) : Prop where
  header : a.getitem 0 = some (es.length : ℤ)
  slot : ∀ (i : ℕ) (e : Entry), es[i]? = some e → e.Stored a (es.length + 1) (i + 1)

/-- A tuple of one integer. -/
def IsLeaf (es : List Entry) : Prop :=
  ∃ v, es = [Entry.direct v]

/-- The store holds the tree and refers to the given number of words. -/
inductive Denotes : IntArray → ℕ → Nest → Prop
  | leaf {a : IntArray} {v : ℤ} (lays : Lays a [Entry.direct v]) : Denotes a 2 (leaf v)
  | node {a : IntArray} {es : List Entry} {ts : List Nest} (lays : Lays a es)
      (tuple : ¬ IsLeaf es) (length : es.length = ts.length)
      (direct : ∀ (i : ℕ) (v : ℤ), es[i]? = some (Entry.direct v) → ts[i]? = some (Nest.leaf v))
      (nested : ∀ (i o : ℕ) (w : IntArray) (t : Nest), es[i]? = some (Entry.nested o w) → ts[i]? = some t →
        Denotes w w.length t) : Denotes a (words es) (node ts)

/-- A store that can be put into another one: copying back the words it refers to, from the
first one on, keeps the tree. -/
def Nestable (a : IntArray) (n : ℕ) (t : Nest) : Prop :=
  n ≤ a.length ∧ Denotes (a.take n) n t

/-! ### Windows -/

variable {a : IntArray}

theorem Entry.Stored.append {base pos : ℕ} {e : Entry} (h : e.Stored a base pos)
    (b : IntArray) : e.Stored (a ++ b) base pos := by
  refine ⟨getitem_append_left h.1 b, ?_⟩
  have h2 := h.2
  cases e with
  | direct v => exact h2
  | nested o w =>
    obtain ⟨hbase, pre, post, rfl, hpre⟩ := h2
    exact ⟨hbase, pre, post ++ b, by simp, hpre⟩

theorem Lays.append {es : List Entry} (h : Lays a es) (b : IntArray) : Lays (a ++ b) es :=
  ⟨getitem_append_left h.header b, fun i e he => (h.slot i e he).append b⟩

variable {n : ℕ} {t : Nest}

/-- Words behind a store do not matter. -/
theorem Denotes.append_words (h : Denotes a n t) (b : IntArray) : Denotes (a ++ b) n t := by
  cases h with
  | leaf lays => exact Denotes.leaf (lays.append b)
  | node lays tuple length direct nested =>
    exact Denotes.node (lays.append b) tuple length direct nested

theorem Nestable.denotes (h : Nestable a n t) : Denotes a n t := by
  have h' := h.2.append_words (a.drop n)
  rwa [take_append_drop] at h'

theorem Denotes.nestable (h : Denotes a a.length t) : Nestable a a.length t :=
  ⟨le_rfl, by rwa [take_length]⟩

theorem Denotes.header (h : Denotes a n t) : a.getitem 0 = some (t.children.length : ℤ) := by
  cases h with
  | leaf lays => exact lays.header
  | node lays tuple length direct nested =>
    rw [lays.header, length]
    rfl

theorem Denotes.length_pos (h : Denotes a n t) : 0 < a.length :=
  getitem_lt h.header

variable {fuel : ℕ}

theorem Denotes.exists_fuel (h : Denotes a n t) (hfuel : a.length ≤ fuel) : ∃ f, fuel = f + 1 :=
  ⟨fuel - 1, by have := h.length_pos; omega⟩

/-! ### The extent of a tuple -/

/-- What the loop of `_calculate_tuple_size` adds for one slot. -/
theorem calculateTupleSize_slot {base pos : ℕ} (pre post : IntArray) {e : Entry}
    (he : e.Stored a base pos) (hbase : pos < base)
    (hnested : ∀ o w, e = Entry.nested o w → 0 < w.length ∧
      ∀ pre post, calculateTupleSize fuel (pre ++ w ++ post) pre.length = some (w.length : ℤ))
    (size : ℤ) :
    (do
      let val ← (pre ++ a ++ post).getitem (pre.length + pos)
      if val < minimumValue then
        let sub := subOffset (pre.length + pos) val
        if sub < 0 ∨ ((pre ++ a ++ post).length : ℤ) ≤ sub then
          some size
        else
          return size + (← calculateTupleSize fuel (pre ++ a ++ post) sub.toNat)
      else
        some size) = some (size + e.words) := by
  have hread : IntArray.getitem (pre ++ a ++ post) (pre.length + pos) = some (e.word pos) := by
    rw [append_assoc, getitem_append_right]
    exact getitem_append_left he.1 post
  rw [hread]
  have h2 := he.2
  cases e with
  | direct v =>
    have hv : ¬ v < minimumValue := not_lt.mpr h2
    simp [Entry.word, Entry.words, hv]
  | nested o w =>
    obtain ⟨ho, p, q, rfl, rfl⟩ := h2
    obtain ⟨hw, hcalc⟩ := hnested _ w rfl
    have hlt : Entry.word pos (Entry.nested p.length w) < minimumValue := by
      simp only [Entry.word]
      omega
    have hsub : subOffset (pre.length + pos) (Entry.word pos (Entry.nested p.length w))
        = ((pre ++ p).length : ℕ) := by
      simp only [subOffset, Entry.word, length_append]
      push_cast
      ring
    have hin : ¬ (((pre ++ p).length : ℤ) < 0 ∨
        ((pre ++ (p ++ w ++ q) ++ post).length : ℤ) ≤ ((pre ++ p).length : ℕ)) := by
      simp only [length_append]
      omega
    have hstore : pre ++ (p ++ w ++ q) ++ post = (pre ++ p) ++ w ++ (q ++ post) := by simp
    simp only [some_bind, if_pos hlt, hsub, if_neg hin]
    rw [Int.toNat_natCast, hstore, hcalc]
    rfl

/-- The extent of a tuple at any place of a larger store is the number of words it refers
to. -/
theorem Denotes.calculateTupleSize (h : Denotes a n t) (hfuel : a.length ≤ fuel) (pre post : IntArray) :
    calculateTupleSize fuel (pre ++ a ++ post) pre.length = some (n : ℤ) := by
  -- both kinds of tuples run the same loop over their entries
  have hloop : ∀ {a : IntArray} {es : List Entry} {fuel : ℕ} (pre post : IntArray), Lays a es →
      (∀ (i o : ℕ) (w : IntArray), es[i]? = some (Entry.nested o w) → 0 < w.length ∧
        ∀ pre post, IntTuple.calculateTupleSize fuel (pre ++ w ++ post) pre.length
          = some (w.length : ℤ)) →
      IntTuple.calculateTupleSize (fuel + 1) (pre ++ a ++ post) pre.length
        = some (words es : ℤ) := by
    intro a es fuel pre post lays hnested
    have hread : IntArray.getitem (pre ++ a ++ post) pre.length = some (es.length : ℤ) := by
      have hr := getitem_append_right pre 0 (a := a ++ post)
      rw [Nat.add_zero, ← append_assoc] at hr
      rw [hr]
      exact getitem_append_left lays.header post
    let st : ℕ → ℤ := fun i => 1 + es.length + ((es.take i).map Entry.words).sum
    have h0 : (1 + (es.length : ℤ)) = st 0 := by simp [st]
    have hn : (words es : ℤ) = st es.length := by
      simp only [st, words, take_length]
      push_cast
      ring
    rw [IntTuple.calculateTupleSize, hread]
    simp only [some_bind, Int.toNat_natCast]
    rw [hn, h0]
    refine foldlM_range st fun i hi => ?_
    have he : es[i]? = some es[i] := getElem?_eq_getElem hi
    have hstep := calculateTupleSize_slot pre post (lays.slot i _ he)
      (by omega) (fun o w how => hnested i o w (by rw [he, how])) (st i)
    have hnext : st i + (es[i].words : ℤ) = st (i + 1) := by
      simp only [st, take_succ_eq_append_getElem hi, map_append, sum_append]
      simp
      ring
    rw [hnext] at hstep
    exact hstep
  induction h generalizing fuel pre post with
  | leaf lays =>
    obtain ⟨fuel, rfl⟩ : ∃ f, fuel = f + 1 := ⟨fuel - 1, by have := getitem_lt lays.header; omega⟩
    refine hloop pre post lays fun i o w hi => ?_
    cases i <;> simp at hi
  | @node a es ts lays tuple length direct nested ih =>
    obtain ⟨fuel, rfl⟩ : ∃ f, fuel = f + 1 := ⟨fuel - 1, by have := getitem_lt lays.header; omega⟩
    refine hloop pre post lays fun i o w hi => ?_
    have hlt : i < ts.length := length ▸ (List.getElem_of_getElem? hi).1
    have ht : ts[i]? = some ts[i] := getElem?_eq_getElem hlt
    have hpos := (nested i o w _ hi ht).length_pos
    -- the window leaves out at least the header of `a`
    have hlen : w.length + 1 ≤ a.length := by
      obtain ⟨ho, p, q, rfl, rfl⟩ := (lays.slot i _ hi).2
      simp only [length_append]
      omega
    exact ⟨hpos, fun p q => ih i o w _ hi ht (by omega) p q⟩

/-! ### Reading a store -/

variable {w : IntArray}

section Reading

theorem Denotes.len (h : Denotes a n t) : (IntTuple.mk a).len = some t.children.length := by
  simp [IntTuple.len, h.header]

/-- One slot: the element is an integer in the slot itself, or it is copied out. -/
theorem Denotes.slot (h : Denotes a n t) (hs : t.children[i]? = some s) :
    (∃ v : ℤ, s = Nest.leaf v ∧ minimumValue ≤ v ∧ a.getitem (i + 1) = some v) ∨
    (∃ o w, i + 1 < o ∧ a.getitem (i + 1) = some (Entry.word (i + 1) (Entry.nested o w)) ∧
      Denotes w w.length s ∧ ∃ pre post, a = pre ++ w ++ post ∧ pre.length = o) := by
  cases h with
  | leaf lays =>
    cases i with
    | zero =>
      cases hs
      have hslot := lays.slot 0 _ rfl
      exact Or.inl ⟨_, rfl, hslot.2, hslot.1⟩
    | succ i => simp [children] at hs
  | @node _ es ts lays tuple length direct nested =>
    have hs' : ts[i]? = some s := hs
    have hi : i < es.length := length ▸ (List.getElem_of_getElem? hs').1
    have he : es[i]? = some es[i] := getElem?_eq_getElem hi
    have hslot := lays.slot i _ he
    cases hcase : es[i] with
    | direct v =>
      rw [hcase] at he hslot
      have hv := direct i v he
      rw [hs'] at hv
      exact Or.inl ⟨v, Option.some_inj.mp hv, hslot.2, hslot.1⟩
    | nested o w =>
      rw [hcase] at he hslot
      obtain ⟨hread, ho, hwindow⟩ := hslot
      exact Or.inr ⟨o, w, by omega, hread, nested i o w s he hs', hwindow⟩

theorem word_nested_lt {i o : ℕ} (h : i < o) : Entry.word i (Entry.nested o w) < minimumValue := by
  simp only [Entry.word]
  omega

theorem subOffset_word {i o : ℕ} : subOffset i (Entry.word i (Entry.nested o w)) = o := by
  simp only [subOffset, Entry.word]
  ring

/-- The store has exactly the words it refers to. -/
def Exact (e : IntTuple) (s : Nest) : Prop :=
  Denotes e.store e.size s

theorem exact_ofInt (hv : minimumValue ≤ v) : Exact (ofInt v) (Nest.leaf v) := by
  refine Denotes.leaf ⟨rfl, fun i e he => ?_⟩
  cases i with
  | zero => cases he; exact ⟨rfl, hv⟩
  | succ i => simp at he

/-- A sub-tuple is copied out as the window its slot points to. -/
theorem get_of_window {pre post : IntArray} {i len : ℕ} (ha : a = pre ++ w ++ post)
    (hlen : (IntTuple.mk a).len = some len) (hi : i < len) (ho : i + 1 < pre.length)
    (hread : a.getitem (i + 1) = some (Entry.word (i + 1) (Entry.nested pre.length w)))
    (hw : Denotes w w.length s) : (IntTuple.mk a).get i = some ⟨w⟩ := by
  subst ha
  have hlt : ¬ minimumValue ≤ Entry.word (i + 1) (Entry.nested pre.length w) :=
    not_le.mpr (word_nested_lt ho)
  have hcalc := hw.calculateTupleSize (show w.length ≤ (pre ++ w ++ post).length by
    simp only [length_append]; omega) pre post
  simp only [IntTuple.get, hlen, some_bind, if_pos hi, uncheckedGet, hread, if_neg hlt,
    subOffset_word, Int.toNat_natCast, size, hcalc, copyFrom_window]
  rfl

/-- An element is an integer in its slot, or a shorter tuple that is copied out. -/
theorem Denotes.child (h : Denotes a n t) (hs : t.children[i]? = some s) :
    (∃ v : ℤ, s = Nest.leaf v ∧ minimumValue ≤ v ∧ (IntTuple.mk a).isValueAt i = some true ∧
      (IntTuple.mk a).valueAt i = some v ∧ (IntTuple.mk a).get i = some (ofInt v)) ∨
    (∃ e, (IntTuple.mk a).isValueAt i = some false ∧ (IntTuple.mk a).get i = some e ∧
      Exact e s ∧ e.size < a.length) := by
  have hi : i < t.children.length := (List.getElem_of_getElem? hs).1
  rcases h.slot hs with ⟨v, rfl, hv, hread⟩ | ⟨o, w, ho, hread, hw, pre, post, rfl, rfl⟩
  · exact Or.inl ⟨v, rfl, hv, by simp [isValueAt, hread, hv], by simp [valueAt, hread, hv],
      by simp [IntTuple.get, h.len, hi, uncheckedGet, hread, hv]⟩
  refine Or.inr ⟨⟨w⟩, ?_, get_of_window rfl h.len hi ho hread hw, hw, ?_⟩
  · have hlt := word_nested_lt (w := w) ho
    rw [isValueAt, hread, Option.map_some, decide_eq_false (not_le.mpr hlt)]
  · simp only [size, length_append]
    omega

/-- Every element can be copied out. -/
theorem Denotes.getitem (h : Denotes a n t) (hs : t.children[i]? = some s) :
    ∃ e, (IntTuple.mk a).get i = some e ∧ Exact e s := by
  rcases h.child hs with ⟨v, rfl, hv, -, -, hget⟩ | ⟨e, -, hget, he, -⟩
  · exact ⟨ofInt v, hget, exact_ofInt hv⟩
  · exact ⟨e, hget, he⟩

theorem Denotes.isValueAt_leaf (h : Denotes a n (Nest.leaf v)) :
    (IntTuple.mk a).isValueAt 0 = some true ∧ (IntTuple.mk a).valueAt 0 = some v := by
  cases h with
  | leaf lays =>
    have hslot := lays.slot 0 _ rfl
    have hread : a.getitem (0 + 1) = some v := hslot.1
    have hv : minimumValue ≤ v := hslot.2
    exact ⟨by simp [isValueAt, hread, hv], by simp [valueAt, hread, hv]⟩

theorem Denotes.isValue_leaf (h : Denotes a n (Nest.leaf v)) :
    (IntTuple.mk a).isValue = some true ∧ (IntTuple.mk a).value = some v ∧ minimumValue ≤ v := by
  cases h with
  | leaf lays =>
    have hslot := lays.slot 0 _ rfl
    have hread : a.getitem 1 = some v := hslot.1
    have hv : minimumValue ≤ v := hslot.2
    have hlen : (IntTuple.mk a).len = some 1 := by simp [IntTuple.len, lays.header]
    refine ⟨?_, hread, hv⟩
    simp [isValue, hlen, value, hread, hv]

theorem Denotes.isValue_node (h : Denotes a n (Nest.node ts)) :
    (IntTuple.mk a).isValue = some false := by
  have hlen := h.len
  cases h with
  | @node _ es _ lays tuple length direct nested =>
    simp only [isValue, hlen, children, some_bind]
    split
    · -- one element, which is not an integer in its slot
      rename_i hone
      obtain ⟨e, rfl⟩ : ∃ e, es = [e] := length_eq_one_iff.mp (length.trans hone)
      cases e with
      | direct v => exact absurd ⟨v, rfl⟩ tuple
      | nested o w =>
        have hslot := lays.slot 0 _ rfl
        have hread : a.getitem 1 = some (Entry.word 1 (Entry.nested o w)) := hslot.1
        have hlt : Entry.word 1 (Entry.nested o w) < minimumValue :=
          word_nested_lt (by have := hslot.2.1; simp at this; omega)
        simp [value, hread, hlt]
    · rfl

theorem Denotes.toInt (h : Denotes a n (Nest.leaf v)) : (IntTuple.mk a).toInt = some v := by
  obtain ⟨h1, h2, -⟩ := h.isValue_leaf
  simp [IntTuple.toInt, h1, h2]

theorem Exact.toInt (h : Exact e (Nest.leaf v)) : e.toInt = some v :=
  Denotes.toInt h

theorem Exact.len (h : Exact e t) : e.len = some t.children.length :=
  Denotes.len h

theorem Exact.len_ofLeaves {vs : List ℤ} (h : Exact e (ofLeaves vs)) : e.len = some vs.length := by
  rw [h.len, children_ofLeaves, length_map]

/-- The copies of the elements of a node are exact and have fewer words. -/
theorem Denotes.get (h : Denotes a n (Nest.node ts)) (hs : ts[i]? = some s) :
    ∃ e, (IntTuple.mk a).get i = some e ∧ Exact e s ∧ e.size < a.length := by
  have hi : i < ts.length := (List.getElem_of_getElem? hs).1
  rcases h.child hs with ⟨v, rfl, hv, hval, -, hget⟩ | ⟨e, -, hget, he, hlt⟩
  · refine ⟨ofInt v, hget, exact_ofInt hv, ?_⟩
    -- a single integer in its slot would make a leaf, so there is a second slot
    have htwo : 1 < ts.length := by
      by_contra hle
      obtain rfl : i = 0 := by omega
      have hone : ts.length = 1 := by omega
      have hnode := h.isValue_node
      obtain ⟨u, hread, hu⟩ := Option.map_eq_some_iff.mp hval
      have hread : a.getitem 1 = some u := hread
      simp [isValue, h.len, hone, value, hread, of_decide_eq_true hu] at hnode
    rcases h.slot (i := 1) (getElem?_eq_getElem htwo) with ⟨v, -, -, hr⟩ | ⟨o, w, -, hr, -⟩
    · exact getitem_lt hr
    · exact getitem_lt hr
  · exact ⟨e, hget, he, hlt⟩

theorem Denotes.elems (h : Denotes a n (Nest.node ts)) :
    ∃ es, (IntTuple.mk a).elems = some es ∧
      Forall₂ (fun e s => Exact e s ∧ e.size < a.length) es ts := by
  obtain ⟨es, hes, hall⟩ := exists_mapM_range fun i s hs => h.get (i := i) (s := s) hs
  exact ⟨es, by simp [IntTuple.elems, h.len, hes], hall⟩

end Reading

end IntTuple
