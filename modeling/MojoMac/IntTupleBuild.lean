/-
Building stores.

A store is laid out as its header, the words of its slots and a data area.  The loops of the
constructors, of `append` and of `extend` fill slots from left to right and put sub-tuples
one behind the other into the data area (`placeAll_eq`).

* `ofTuples_spec`, `append_spec` — tuples that are `Nestable` go into a new tuple;
* `extend_spec` — the elements of another tuple are copied out of it first, so they always do;
* `slice_spec`, `replaceEntry_spec`, `flatten_spec` — new tuples from the elements of an old
  one;
* `replaceEntryInt_spec` — writing in place, which may leave words that nothing refers to.
-/
import MojoMac.IntTupleDenotes

open Nest IntArray List

namespace IntTuple

variable {t : Nest} {a : IntArray} {n : ℕ} {es : List Entry} {x : Item} {vs : List ℤ}

/-! ### Header, slots and data -/

/-- The words of consecutive slots. -/
def entryWords : ℕ → List Entry → IntArray
  | _, [] => []
  | pos, e :: es => some (e.word pos) :: entryWords (pos + 1) es

attribute [local simp] entryWords

theorem entryWords_length (pos : ℕ) (es : List Entry) : (entryWords pos es).length = es.length := by
  induction es generalizing pos with
  | nil => rfl
  | cons e es ih => simp [ih]

theorem entryWords_append (pos : ℕ) (es fs : List Entry) :
    entryWords pos (es ++ fs) = entryWords pos es ++ entryWords (pos + es.length) fs := by
  induction es generalizing pos with
  | nil => simp
  | cons e es ih =>
    simp only [cons_append, entryWords, ih, length_cons]
    congr 3
    ring

theorem entryWords_getElem? (pos : ℕ) (es : List Entry) (i : ℕ) :
    (entryWords pos es)[i]? = es[i]?.map fun e => some (e.word (pos + i)) := by
  induction es generalizing pos i with
  | nil => simp
  | cons e es ih =>
    cases i with
    | zero => simp
    | succ i =>
      simp only [entryWords, getElem?_cons_succ, ih]
      congr 2
      funext e
      congr 2
      ring

theorem entryWords_set (pos : ℕ) (es : List Entry) (i : ℕ) (e : Entry) :
    entryWords pos (es.set i e) = (entryWords pos es).set i (some (e.word (pos + i))) := by
  induction es generalizing pos i with
  | nil => rfl
  | cons f es ih =>
    cases i with
    | zero => rfl
    | succ i => simp [ih, Nat.add_right_comm, Nat.add_assoc]

/-- An entry whose sub-tuple lies in a data area that starts at `base`. -/
def Entry.Inside (data : IntArray) (base : ℕ) : Entry → Prop
  | direct v => minimumValue ≤ v
  | nested o w => ∃ pre post, data = pre ++ w ++ post ∧ base + pre.length = o

theorem Entry.Inside.append {data : IntArray} {base : ℕ} {e : Entry} (h : e.Inside data base)
    (more : IntArray) : e.Inside (data ++ more) base := by
  cases e with
  | direct v => exact h
  | nested o w =>
    obtain ⟨pre, post, rfl, ho⟩ := h
    exact ⟨pre, post ++ more, by simp, ho⟩

/-- The entry when the data area has moved. -/
def Entry.shift (δ : ℕ) : Entry → Entry
  | direct v => direct v
  | nested o w => nested (o + δ) w

theorem Entry.Inside.shift {data : IntArray} {base : ℕ} {e : Entry} (h : e.Inside data base)
    (δ : ℕ) : (e.shift δ).Inside data (base + δ) := by
  cases e with
  | direct v => exact h
  | nested o w =>
    obtain ⟨pre, post, rfl, ho⟩ := h
    exact ⟨pre, post, rfl, by omega⟩

/-- A header and the words of the slots. -/
def front (len : ℕ) (es : List Entry) : IntArray :=
  some (len : ℤ) :: entryWords 1 es

@[simp] theorem length_front (len : ℕ) (es : List Entry) : (front len es).length = es.length + 1 := by
  simp [front, entryWords_length]

/-- A store made of a header, slots and a data area. -/
def assemble (es : List Entry) (data : IntArray) : IntArray :=
  some (es.length : ℤ) :: entryWords 1 es ++ data

theorem lays_assemble (es : List Entry) (data : IntArray)
    (h : ∀ e ∈ es, Entry.Inside data (es.length + 1) e) : Lays (assemble es data) es := by
  refine ⟨rfl, fun i e he => ⟨?_, ?_⟩⟩
  · have hi : i < (entryWords 1 es).length := by
      rw [entryWords_length]
      exact (List.getElem_of_getElem? he).1
    rw [getitem_eq_some, assemble, cons_append, getElem?_cons_succ,
      getElem?_append_left hi, entryWords_getElem?, he, Nat.add_comm 1 i]
    rfl
  · have hin := h e (mem_of_getElem? he)
    cases e with
    | direct v => exact hin
    | nested o w =>
      obtain ⟨pre, post, rfl, ho⟩ := hin
      refine ⟨by omega, front es.length es ++ pre, post, by simp [assemble, front], ?_⟩
      rw [length_append, length_front, ho]

theorem Lays.assemble (h : Lays a es) :
    ∃ data, a = assemble es data ∧ ∀ e ∈ es, Entry.Inside data (es.length + 1) e := by
  have hlen : es.length + 1 ≤ a.length := by
    cases es using reverseRecOn with
    | nil => exact getitem_lt h.header
    | append_singleton es e =>
      have := getitem_lt (h.slot es.length e (by simp)).1
      simp only [length_append, length_singleton]
      omega
  have hsplit : a = IntTuple.assemble es (a.drop (es.length + 1)) := by
    refine ext_getElem? fun i => ?_
    rw [IntTuple.assemble, cons_append]
    cases i with
    | zero => rw [getElem?_cons_zero]; exact getitem_eq_some.mp h.header
    | succ i =>
      rw [getElem?_cons_succ]
      by_cases hi : i < es.length
      · have he : es[i]? = some es[i] := getElem?_eq_getElem hi
        rw [getElem?_append_left (by rwa [entryWords_length]), entryWords_getElem?, he,
          getitem_eq_some.mp (h.slot i _ he).1, Nat.add_comm 1 i]
        rfl
      · rw [getElem?_append_right (by rw [entryWords_length]; omega), entryWords_length,
          getElem?_drop]
        congr 1
        omega
  refine ⟨a.drop (es.length + 1), hsplit, fun e he => ?_⟩
  obtain ⟨i, hi⟩ := mem_iff_getElem?.mp he
  have hslot := (h.slot i e hi).2
  cases e with
  | direct v => exact hslot
  | nested o w =>
    obtain ⟨ho, pre, post, rfl, rfl⟩ := hslot
    refine ⟨pre.drop (es.length + 1), post, ?_, by rw [length_drop]; omega⟩
    rw [append_assoc, append_assoc, drop_append_of_le_length ho]

/-! ### Filling slots -/

/-- What goes into a slot: an integer, or a tuple of which the first `n` words are read. -/
inductive Item where
  | int (v : ℤ)
  | tuple (e : IntTuple) (n : ℕ)

namespace Item

/-- The words an item adds to the data area. -/
def data : Item → IntArray
  | int _ => []
  | tuple e _ => e.store

/-- The entry of an item whose words start at `storage`. -/
def entry (storage : ℕ) : Item → Entry
  | int v => Entry.direct v
  | tuple e n => Entry.nested storage (e.store.take n)

def write (store : IntArray) (pos storage : ℕ) : Item → Option (IntArray × ℕ)
  | int v => do return (← store.setitem pos v, storage)
  | tuple e _ => insert store (pos - 1) storage e

end Item

def dataOf (items : List Item) : IntArray :=
  items.flatMap Item.data

/-- The entries of items whose words are stored one behind the other. -/
def placed : ℕ → List Item → List Entry
  | _, [] => []
  | storage, x :: items => x.entry storage :: placed (storage + x.data.length) items

def placeAll (store : IntArray) (pos storage : ℕ) : List Item → Option (IntArray × ℕ)
  | [] => some (store, storage)
  | x :: items => do
    let (store, storage) ← x.write store pos storage
    placeAll store (pos + 1) storage items

attribute [local simp] placed placeAll

theorem placed_length (storage : ℕ) (items : List Item) :
    (placed storage items).length = items.length := by
  induction items generalizing storage with
  | nil => rfl
  | cons x items ih => simp [ih]

theorem placed_append (storage : ℕ) (xs ys : List Item) :
    placed storage (xs ++ ys) = placed storage xs ++ placed (storage + (dataOf xs).length) ys := by
  induction xs generalizing storage with
  | nil => simp [dataOf]
  | cons x xs ih => simp [dataOf, ih, Nat.add_assoc]

theorem placeAll_append (store : IntArray) (pos storage : ℕ) (xs ys : List Item) :
    placeAll store pos storage (xs ++ ys)
      = (placeAll store pos storage xs).bind fun r => placeAll r.1 (pos + xs.length) r.2 ys := by
  induction xs generalizing store pos storage with
  | nil => simp
  | cons x xs ih =>
    simp only [cons_append, placeAll, length_cons, Option.bind_eq_bind, Option.bind_assoc, ih]
    simp only [Nat.add_assoc, Nat.add_comm 1]

theorem set_length_append (p q : IntArray) (x y : Option ℤ) :
    (p ++ x :: q).set p.length y = p ++ y :: q := by
  rw [set_append_right _ _ le_rfl, Nat.sub_self, set_cons_zero]

/-- Copying the end of an array. -/
theorem copyFrom_append_from (p pre e r : IntArray) :
    (p ++ init e.length ++ r).copyFrom p.length (pre ++ e) pre.length e.length
      = some (p ++ e ++ r) := by
  have hdrop : (p ++ init e.length ++ r).drop (p.length + e.length) = r := by
    have hl : (p ++ init e.length).length = p.length + e.length := by simp [init]
    rw [← hl, drop_left]
  rw [copyFrom, if_pos ⟨by simp, by simp [init]⟩, hdrop, append_assoc p, take_left,
    drop_left, take_length]

theorem init_add (m k : ℕ) : init (m + k) = init m ++ init k := by
  simp [init, replicate_append_replicate]

/-- One step fills the first free slot and the first free words of the data area. -/
theorem Item.write_eq (x : Item) (p mid : IntArray) (r : ℕ) (hp : 0 < p.length) :
    x.write (p ++ none :: (mid ++ init (x.data.length + r))) p.length (p.length + 1 + mid.length)
      = some (p ++ some ((x.entry (p.length + 1 + mid.length)).word p.length)
          :: (mid ++ (x.data ++ init r)), p.length + 1 + mid.length + x.data.length) := by
  have hlt : p.length < (p ++ none :: (mid ++ init (x.data.length + r))).length := by simp
  cases x with
  | int v =>
    simp only [write, setitem_of_lt hlt, some_bind, set_length_append]
    simp [data, entry, Entry.word]
  | tuple e n =>
    have hpos : p.length - 1 + 1 = p.length := by omega
    have hcast : ((p.length - 1 : ℕ) : ℤ) + 1 = (p.length : ℤ) := by omega
    have hcopy : ∀ w : Option ℤ, (p ++ w :: (mid ++ init ((tuple e n).data.length + r))).copyFrom
            (p.length + 1 + mid.length) e.store 0 e.store.length
          = some (p ++ w :: (mid ++ (e.store ++ init r))) := by
      intro w
      have hstore : p ++ w :: (mid ++ init ((tuple e n).data.length + r))
          = (p ++ w :: mid) ++ init e.store.length ++ init r := by
        rw [init_add]
        simp [data]
      have hlen : p.length + 1 + mid.length = (p ++ w :: mid).length := by
        simp
        omega
      rw [hstore, hlen]
      exact (copyFrom_append_from _ [] _ _).trans (by simp)
    simp only [write, insert, hpos, hcast, setitem_of_lt hlt, some_bind, set_length_append, size, hcopy]
    rfl

/-- Filling slots in front of `k` more unwritten ones. -/
theorem placeAll_eq (items : List Item) (p d : IntArray) (k r : ℕ) (hp : 0 < p.length) :
    placeAll (p ++ (init (items.length + k) ++ d ++ init ((dataOf items).length + r))) p.length
        (p.length + items.length + k + d.length) items
      = some (p ++ entryWords p.length (placed (p.length + items.length + k + d.length) items)
          ++ (init k ++ (d ++ dataOf items) ++ init r),
        p.length + items.length + k + d.length + (dataOf items).length) := by
  induction items generalizing p d with
  | nil => simp [dataOf]
  | cons x items ih =>
    have hdata : dataOf (x :: items) = x.data ++ dataOf items := rfl
    have hslots : init ((x :: items).length + k) = none :: init (items.length + k) := by
      rw [length_cons, Nat.add_right_comm]
      rfl
    have hmid : p.length + (x :: items).length + k + d.length
        = p.length + 1 + (init (items.length + k) ++ d).length := by
      simp only [length_append, length_cons, init, length_replicate]
      omega
    have hwrite := x.write_eq p (init (items.length + k) ++ d) ((dataOf items).length + r) hp
    rw [← hmid] at hwrite
    have hnext := ih (p ++ [some ((x.entry (p.length + (x :: items).length + k + d.length)).word
      p.length)]) (d ++ x.data) (by simp)
    have hstorage : ∀ w : Option ℤ, (p ++ [w]).length + items.length + k + (d ++ x.data).length
        = p.length + (x :: items).length + k + d.length + x.data.length := by
      intro w
      simp only [length_append, length_cons, length_nil]
      omega
    rw [hstorage] at hnext
    rw [placeAll, hslots, hdata, length_append, Nat.add_assoc x.data.length, cons_append,
      cons_append, hwrite]
    simp only [some_bind]
    simp only [append_assoc, cons_append, nil_append, length_append, length_singleton] at hnext ⊢
    rw [hnext]
    simp only [placed, entryWords, cons_append, Nat.add_assoc]

/-! ### Entries and items that denote trees -/

def Entry.Denotes : Entry → Nest → Prop
  | direct v, t => t = Nest.leaf v
  | nested _ w, t => IntTuple.Denotes w w.length t

theorem exists_denotes {ts : List Nest} (h : Forall₂ Entry.Denotes es ts)
    {i : ℕ} {e : Entry} (he : es[i]? = some e) : ∃ t, ts[i]? = some t ∧ e.Denotes t := by
  obtain ⟨hi, rfl⟩ := List.getElem_of_getElem? he
  have hi' : i < ts.length := h.length_eq ▸ hi
  exact ⟨ts[i], getElem?_eq_getElem hi', (forall₂_iff_get.mp h).2 i hi hi'⟩

theorem denotes_node {ts : List Nest} (lays : Lays a es)
    (tuple : ¬ IsLeaf es) (h : Forall₂ Entry.Denotes es ts) : Denotes a (words es) (node ts) := by
  refine Denotes.node lays tuple h.length_eq (fun i v hv => ?_) (fun i o w t hw ht => ?_)
  · obtain ⟨t, ht, hd⟩ := exists_denotes h hv
    exact ht.trans (congrArg some hd)
  · obtain ⟨u, hu, hd⟩ := exists_denotes h hw
    rwa [Option.some_inj.mp (ht.symm.trans hu)]

/-- Every denoting store has entries that denote the elements. -/
theorem Denotes.exists_entries (h : Denotes a n t) :
    ∃ es, Lays a es ∧ Forall₂ Entry.Denotes es t.children ∧ n = words es ∧
      (∀ v, t = Nest.leaf v → es = [Entry.direct v]) ∧ (∀ ts, t = Nest.node ts → ¬ IsLeaf es) := by
  cases h with
  | @leaf _ v lays =>
    refine ⟨_, lays, Forall₂.cons rfl Forall₂.nil, rfl, ?_, ?_⟩
    · intro u hu
      cases hu
      rfl
    · intro ts hts
      cases hts
  | @node _ es ts lays tuple length direct nested =>
    refine ⟨es, lays, ?_, rfl, (fun v hv => by cases hv), fun _ _ => tuple⟩
    rw [forall₂_iff_get]
    refine ⟨length, fun i hi hi' => ?_⟩
    have he : es[i]? = some es[i] := getElem?_eq_getElem hi
    have ht : ts[i]? = some ts[i] := getElem?_eq_getElem hi'
    change Entry.Denotes es[i] ts[i]
    cases hcase : es[i] with
    | direct v =>
      rw [hcase] at he
      have hv := direct i v he
      rw [ht] at hv
      exact Option.some_inj.mp hv
    | nested o w =>
      rw [hcase] at he
      exact nested i o w _ he ht

namespace Item

def Denotes : Item → Nest → Prop
  | int v, t => minimumValue ≤ v ∧ t = Nest.leaf v
  | tuple e n, t => Nestable e.store n t

/-- The words of the data area that the entry of an item refers to. -/
def words : Item → ℕ
  | int _ => 0
  | tuple _ n => n

theorem Denotes.entry (h : x.Denotes t) (storage : ℕ) : (x.entry storage).Denotes t := by
  cases x with
  | int v => exact h.2
  | tuple e n =>
    have hlen : (e.store.take n).length = n := by rw [length_take, min_eq_left h.1]
    simp only [Item.entry, Entry.Denotes, hlen]
    exact h.2

theorem Denotes.entry_words (h : x.Denotes t) (storage : ℕ) :
    (x.entry storage).words = x.words := by
  cases x with
  | int v => rfl
  | tuple e n => simp [Item.entry, Entry.words, Item.words, h.1]

/-- An integer that can be told from an offset, or any tuple. -/
def Fits : Item → Prop
  | int v => minimumValue ≤ v
  | tuple _ _ => True

theorem Denotes.fits (h : x.Denotes t) : x.Fits := by
  cases x with
  | int v => exact h.1
  | tuple e n => trivial

/-- The words of an item start at the end of what is stored before. -/
theorem Fits.inside (h : x.Fits) (base : ℕ) (d more : IntArray) :
    (x.entry (base + d.length)).Inside (d ++ x.data ++ more) base := by
  cases x with
  | int v => exact h
  | tuple e n =>
    refine ⟨d, e.store.drop n ++ more, ?_, rfl⟩
    rw [append_assoc, append_assoc, ← append_assoc (e.store.take n), take_append_drop]
    rfl

end Item

section Placed

variable {items : List Item} {ts : List Nest}

section

variable (h : List.Forall₂ Item.Denotes items ts)

include h

theorem forall₂_placed (storage : ℕ) : Forall₂ Entry.Denotes (placed storage items) ts := by
  induction h generalizing storage with
  | nil => exact Forall₂.nil
  | cons hx _ ih => exact Forall₂.cons (hx.entry storage) (ih _)

theorem sum_placed_words (storage : ℕ) :
    ((placed storage items).map Entry.words).sum = (items.map Item.words).sum := by
  induction h generalizing storage with
  | nil => rfl
  | cons hx _ ih => simp [ih, hx.entry_words]

theorem forall_fits : ∀ x ∈ items, x.Fits := by
  induction h with
  | nil => exact fun _ hx => absurd hx not_mem_nil
  | cons hx _ ih => exact forall_mem_cons.mpr ⟨hx.fits, ih⟩

end

theorem inside_placed (h : ∀ x ∈ items, x.Fits) (base : ℕ) (d more : IntArray) :
    ∀ e ∈ placed (base + d.length) items, e.Inside (d ++ dataOf items ++ more) base := by
  induction items generalizing d with
  | nil =>
    intro e he
    exact absurd he not_mem_nil
  | cons x items ih =>
    obtain ⟨hx, hitems⟩ := forall_mem_cons.mp h
    intro e he
    rcases mem_cons.mp he with rfl | he
    · have hin := hx.inside base d (dataOf items ++ more)
      simpa [dataOf] using hin
    · have hin := ih hitems (d ++ x.data) e (by rwa [length_append, ← Nat.add_assoc])
      simpa [dataOf] using hin

/-- The store of a tuple of items. -/
theorem lays_placed (h : ∀ x ∈ items, x.Fits) :
    Lays (assemble (placed (items.length + 1) items) (dataOf items))
      (placed (items.length + 1) items) := by
  have hin := inside_placed h (items.length + 1) [] []
  simp only [length_nil, Nat.add_zero, nil_append, append_nil] at hin
  exact lays_assemble _ _ (by rwa [placed_length])

theorem not_isLeaf_placed (h : ∀ v, items ≠ [Item.int v]) (storage : ℕ) :
    ¬ IsLeaf (placed storage items) := by
  rintro ⟨v, hv⟩
  match items with
  | [] => simp at hv
  | [Item.int u] => exact h u rfl
  | [Item.tuple e n] => simp [Item.entry] at hv
  | x :: y :: items => simp at hv

/-- Items are written into fresh words; `r` words stay behind them. -/
theorem placeAll_fresh (items : List Item) (r : ℕ) :
    ∃ store, (init (1 + items.length + (dataOf items).length + r)).setitem 0 (items.length : ℤ)
        = some store ∧ placeAll store 1 (items.length + 1) items
        = some (assemble (placed (items.length + 1) items) (dataOf items ++ init r),
          items.length + 1 + (dataOf items).length) := by
  have hplace := placeAll_eq items [some (items.length : ℤ)] [] 0 r (by simp)
  refine ⟨[some (items.length : ℤ)] ++ (init (items.length + 0) ++ []
    ++ init ((dataOf items).length + r)), ?_, ?_⟩
  · rw [setitem_of_lt (by simp only [init, length_replicate]; omega),
      show 1 + items.length + (dataOf items).length + r
        = items.length + ((dataOf items).length + r) + 1 by omega]
    simp [init, replicate_succ, replicate_append_replicate]
  · simp only [length_singleton, length_nil, Nat.add_zero, Nat.add_comm 1 items.length] at hplace ⊢
    rw [hplace]
    simp [assemble, placed_length, init]

end Placed

/-! ### Constructors -/

variable (ps : List (IntTuple × ℕ))

theorem insertAll_eq_placeAll (store : IntArray) (idx storage : ℕ) :
    insertAll store idx storage (ps.map Prod.fst)
      = placeAll store (idx + 1) storage (ps.map fun p => Item.tuple p.1 p.2) := by
  induction ps generalizing store idx storage with
  | nil => rfl
  | cons p ps ih => simp [insertAll, Item.write, ih]

/-- Tuples with the number of words that they refer to. -/
def tuples : List Item :=
  ps.map fun p => Item.tuple p.1 p.2

theorem elementsSize_eq :
    elementsSize (ps.map Prod.fst) = ps.length + (dataOf (tuples ps)).length := by
  simp [elementsSize, tuples, dataOf, Item.data, size, length_flatMap, sum_map_add,
    Function.comp_def, Nat.add_comm]

@[simp] theorem length_tuples : (tuples ps).length = ps.length :=
  length_map _

theorem tuples_words : (tuples ps).map Item.words = ps.map Prod.snd := by
  simp [tuples, Function.comp_def, Item.words]

variable (xs : List IntTuple)

section Constructors

/-- The constructor puts the tuples one behind the other. -/
theorem ofTuples_assemble : ofTuples (ps.map Prod.fst)
      = some ⟨assemble (placed (ps.length + 1) (tuples ps)) (dataOf (tuples ps))⟩ := by
  have hlen := length_tuples ps
  have hsize : elementsSize (ps.map Prod.fst) + 1
      = 1 + (tuples ps).length + (dataOf (tuples ps)).length + 0 := by
    rw [elementsSize_eq, hlen]
    omega
  obtain ⟨store, hstore, hplace⟩ := placeAll_fresh (tuples ps) 0
  simp only [ofTuples, hsize, length_map, ← hlen, hstore, some_bind, insertAll_eq_placeAll]
  change (placeAll store 1 ((tuples ps).length + 1) (tuples ps)).bind _ = _
  rw [hplace]
  simp [init]

variable {ps} {ts : List Nest}

/-- A tuple of tuples. -/
theorem ofTuples_spec (h : Forall₂ Item.Denotes (tuples ps) ts) :
    ∃ a, ofTuples (ps.map Prod.fst) = some ⟨a⟩ ∧
      Denotes a (1 + ps.length + (ps.map Prod.snd).sum) (node ts) ∧
      a.length = 1 + ps.length + (dataOf (tuples ps)).length := by
  refine ⟨_, ofTuples_assemble ps, ?_, ?_⟩
  · have hd := denotes_node (lays_placed (forall_fits h)) (not_isLeaf_placed (fun v hv => ?_) _)
      (forall₂_placed h _)
    · rwa [words, placed_length, sum_placed_words h, tuples_words, length_tuples] at hd
    · cases ps <;> simp [tuples] at hv
  · simp [assemble, entryWords_length, placed_length]
    omega

/-- The old slots of `append`, with their offsets moved. -/
theorem append_loop {data : IntArray} (k newLen r : ℕ)
    (hin : ∀ e ∈ es, e.Inside data (es.length + 1)) :
    (range es.length).foldlM (fun (store : IntArray) i => do
        let val ← IntArray.getitem (assemble es data) (i + 1)
        store.setitem (i + 1) (if minimumValue ≤ val then val else val - k))
      (some (newLen : ℤ) :: init (es.length + r))
      = some (front newLen (es.map (Entry.shift k)) ++ init r) := by
  have hlays := lays_assemble _ _ hin
  let ws := entryWords 1 (es.map (Entry.shift k))
  have hws : ws.length = es.length := by simp [ws, entryWords_length]
  let st : ℕ → IntArray := fun i =>
    (some (newLen : ℤ) :: ws.take i) ++ init (es.length - i + r)
  have h0 : some (newLen : ℤ) :: init (es.length + r) = st 0 := by simp [st]
  have hn : front newLen (es.map (Entry.shift k)) ++ init r = st es.length := by
    simp only [st, Nat.sub_self, Nat.zero_add, ← hws, take_length]
    rfl
  rw [h0, hn]
  refine foldlM_range st fun i hi => ?_
  have he : es[i]? = some es[i] := getElem?_eq_getElem hi
  have hslot := hlays.slot i _ he
  -- the word that is written is the word of the moved entry
  have hword : (if minimumValue ≤ es[i].word (i + 1) then es[i].word (i + 1)
      else es[i].word (i + 1) - k) = (es[i].shift k).word (i + 1) := by
    cases hcase : es[i] with
    | direct v =>
      rw [hcase] at hslot
      exact if_pos hslot.2
    | nested o w =>
      rw [hcase] at hslot
      have hlt := word_nested_lt (w := w) (show i + 1 < o by have := hslot.2.1; omega)
      rw [if_neg (not_le.mpr hlt)]
      simp only [Entry.word, Entry.shift]
      push_cast
      ring
  have hget : ws[i]? = some (some ((es[i].shift k).word (i + 1))) := by
    rw [entryWords_getElem?, getElem?_map, he, Nat.add_comm 1 i]
    rfl
  have hinit : init (es.length - i + r) = none :: init (es.length - (i + 1) + r) := by
    rw [show es.length - i + r = es.length - (i + 1) + r + 1 by omega]
    rfl
  have hset := set_length_append (some (newLen : ℤ) :: ws.take i)
    (init (es.length - (i + 1) + r)) none (some ((es[i].shift k).word (i + 1)))
  rw [show (some (newLen : ℤ) :: ws.take i).length = i + 1 by simp [hws]; omega] at hset
  simp only [hslot.1, some_bind, hword, st, hinit]
  rw [setitem_of_lt (by simp [hws]; omega), hset]
  simp [take_add_one, hget]

/-- Appending gives new slots behind the old ones and new data behind the old data. -/
theorem append_assemble {data : IntArray}
    (hin : ∀ e ∈ es, e.Inside data (es.length + 1)) (hps : ps ≠ []) :
    (IntTuple.mk (assemble es data)).append (ps.map Prod.fst)
      = some ⟨assemble (es.map (Entry.shift ps.length)
          ++ placed (es.length + ps.length + 1 + data.length) (tuples ps))
        (data ++ dataOf (tuples ps))⟩ := by
  have hlen := length_tuples ps
  have hps' : (ps.map Prod.fst).length ≠ 0 := by simpa using hps
  have hold : (IntTuple.mk (assemble es data)).len = some es.length := by
    simp [IntTuple.len, (lays_assemble es data hin).header]
  have hsize : (assemble es data).length = 1 + es.length + data.length := by
    simp [assemble, entryWords_length]
    omega
  let more := (dataOf (tuples ps)).length
  let slots := front (es.length + ps.length) (es.map (Entry.shift ps.length))
  have hslots : slots.length = es.length + 1 := by simp [slots]
  have hstart : (init ((assemble es data).length + elementsSize (ps.map Prod.fst))).setitem 0
        ((es.length + (ps.map Prod.fst).length : ℕ) : ℤ)
      = some (some ((es.length + ps.length : ℕ) : ℤ) :: init (es.length +
        (ps.length + data.length + more))) := by
    rw [setitem_of_lt (by simp [init, hsize]), elementsSize_eq, hsize, length_map]
    rw [show 1 + es.length + data.length + (ps.length + (dataOf (tuples ps)).length)
      = es.length + (ps.length + data.length + more) + 1 by omega]
    rfl
  have hloop := append_loop ps.length (es.length + ps.length) (ps.length + data.length + more) hin
  -- the data of the old elements goes behind the new slots
  have hcopy : IntArray.copyFrom (slots ++ init (ps.length + data.length + more))
        (es.length + ps.length + 1) (assemble es data) (es.length + 1) data.length
      = some (slots ++ (init (ps.length + 0) ++ data ++ init (more + 0))) := by
    have hc := copyFrom_append_from (slots ++ init ps.length) (front es.length es) data (init more)
    rw [length_append, hslots, length_front, show (init ps.length).length = ps.length by simp [init],
      Nat.add_right_comm] at hc
    rw [init_add, init_add]
    simpa [assemble, front] using hc
  have hplace := placeAll_eq (tuples ps) slots data 0 0 (by omega)
  rw [hslots, hlen, Nat.add_right_comm es.length 1] at hplace
  have hrest : (assemble es data).length - es.length - 1 = data.length := by omega
  simp only [IntTuple.append, if_neg hps', hold, size, Option.bind_eq_bind, Option.bind_some]
  simp only [Option.bind_eq_bind] at hloop
  rw [hstart]
  simp only [Option.bind_some, length_map, hloop, hrest, insertAll_eq_placeAll]
  change (IntArray.copyFrom (slots ++ _) _ _ _ _).bind _ = _
  rw [hcopy, Option.bind_some]
  change (placeAll _ (es.length + 1) _ (tuples ps)).bind _ = _
  simp only [Nat.add_zero] at hplace ⊢
  rw [hplace]
  simp [slots, front, assemble, placed_length, init, entryWords_append, Nat.add_comm 1]

/-- Appending tuples to a tuple. -/
theorem append_spec (ha : Denotes a n t) (hps : ps ≠ [])
    (h : Forall₂ Item.Denotes (tuples ps) ts) :
    ∃ b, (IntTuple.mk a).append (ps.map Prod.fst) = some ⟨b⟩ ∧
      Denotes b (n + ps.length + (ps.map Prod.snd).sum) (Nest.node (t.children ++ ts)) ∧
      b.length = a.length + ps.length + (dataOf (tuples ps)).length := by
  obtain ⟨es, lays, hes, rfl, -, -⟩ := ha.exists_entries
  obtain ⟨data, rfl, hin⟩ := lays.assemble
  let storage := es.length + ps.length + 1 + data.length
  refine ⟨_, append_assemble hin hps, ?_, ?_⟩
  · have hin' : ∀ e ∈ es.map (Entry.shift ps.length) ++ placed storage (tuples ps),
        e.Inside (data ++ dataOf (tuples ps)) (es.length + ps.length + 1) := by
      intro e he
      rcases mem_append.mp he with he | he
      · obtain ⟨e, hmem, rfl⟩ := mem_map.mp he
        have hs := ((hin e hmem).shift ps.length).append (dataOf (tuples ps))
        rwa [Nat.add_right_comm] at hs
      · have hi := inside_placed (forall_fits h) (es.length + ps.length + 1) data []
        rw [append_nil] at hi
        exact hi e he
    have hshift : Forall₂ Entry.Denotes (es.map (Entry.shift ps.length)) t.children := by
      rw [forall₂_map_left_iff]
      refine hes.imp fun e s hd => ?_
      cases e with
      | direct v | nested o w => exact hd
    have hleaf : ¬ IsLeaf (es.map (Entry.shift ps.length) ++ placed storage (tuples ps)) := by
      rintro ⟨v, hv⟩
      obtain ⟨p, ps, rfl⟩ := exists_cons_of_ne_nil hps
      cases es with
      | nil => simp [tuples, Item.entry] at hv
      | cons e es => simp [tuples] at hv
    have hd := denotes_node (lays_assemble _ _ (by
      rwa [length_append, length_map, placed_length, length_tuples])) hleaf
      (rel_append hshift (forall₂_placed h storage))
    have hsum : ((es.map (Entry.shift ps.length)).map Entry.words).sum
        = (es.map Entry.words).sum := by
      rw [map_map]
      congr 2
      funext e
      cases e <;> rfl
    have hwords : words (es.map (Entry.shift ps.length) ++ placed storage (tuples ps))
        = words es + ps.length + (ps.map Prod.snd).sum := by
      rw [words, map_append, sum_append, hsum, sum_placed_words h, words,
        length_append, length_map, placed_length, length_tuples, tuples_words]
      omega
    rwa [hwords] at hd
  · simp [assemble, entryWords_length, placed_length]
    omega

/-! ### Elements with exactly their words -/

/-- Every element with all of its words. -/
def whole (es : List IntTuple) : List (IntTuple × ℕ) :=
  es.map fun e => (e, e.size)

theorem whole_fst (es : List IntTuple) : (whole es).map Prod.fst = es := by
  simp [whole, Function.comp_def]

theorem sum_whole (es : List IntTuple) :
    ((whole es).map Prod.snd).sum = (dataOf (tuples (whole es))).length := by
  simp [whole, tuples, dataOf, Item.data, size, length_flatMap, Function.comp_def]

theorem forall₂_whole {es : List IntTuple} (h : Forall₂ Exact es ts) :
    Forall₂ Item.Denotes (tuples (whole es)) ts := by
  rw [tuples, whole, map_map, forall₂_map_left_iff]
  exact h.imp fun e t he => Denotes.nestable he

theorem ofTuples_exact {es : List IntTuple} (h : Forall₂ Exact es ts) :
    ∃ e, ofTuples es = some e ∧ Exact e (node ts) := by
  obtain ⟨a, ha, hd, hlen⟩ := ofTuples_spec (forall₂_whole h)
  rw [whole_fst] at ha
  rw [sum_whole, ← hlen] at hd
  exact ⟨⟨a⟩, ha, hd⟩

theorem append_exact {e x : IntTuple} {t u : Nest} (he : Exact e t) (hx : Exact x u) :
    ∃ r, e.append [x] = some r ∧ Exact r (node (t.children ++ [u])) := by
  obtain ⟨b, hb, hd, hlen⟩ := append_spec he (show whole [x] ≠ [] by simp [whole])
    (forall₂_whole (Forall₂.cons hx Forall₂.nil))
  rw [whole_fst] at hb
  rw [sum_whole] at hd
  exact ⟨⟨b⟩, hb, by rwa [Exact, size, hlen]⟩

theorem exact_empty : Exact empty (node []) := by
  obtain ⟨e, he, hd⟩ : ∃ e, ofTuples [] = some e ∧ Exact e (node []) := ofTuples_exact Forall₂.nil
  have hempty : ofTuples [] = some empty := rfl
  rw [hempty] at he
  cases he
  exact hd

/-! ### Tuples whose elements are known word by word -/

/-- The store of a tuple of the given tuples. -/
def built : IntArray :=
  assemble (placed (xs.length + 1) (tuples (whole xs))) (dataOf (tuples (whole xs)))

theorem ofTuples_eq_built : ofTuples xs = some ⟨built xs⟩ := by
  have h := ofTuples_assemble (whole xs)
  rwa [whole_fst, whole, length_map] at h

theorem placed_shift (δ storage : ℕ) (items : List Item) :
    (placed storage items).map (Entry.shift δ) = placed (storage + δ) items := by
  induction items generalizing storage with
  | nil => rfl
  | cons x items ih =>
    rw [placed, map_cons, ih, placed, Nat.add_right_comm]
    cases x <;> rfl

theorem fits_whole : ∀ x ∈ tuples (whole xs), x.Fits := by
  intro x hx
  obtain ⟨p, -, rfl⟩ := mem_map.mp hx
  trivial

theorem length_whole : (tuples (whole xs)).length = xs.length := by
  simp [tuples, whole]

theorem lays_built : Lays (built xs) (placed (xs.length + 1) (tuples (whole xs))) := by
  have h := lays_placed (fits_whole xs)
  rwa [length_whole] at h

theorem append_built (x : IntTuple) :
    (IntTuple.mk (built xs)).append [x] = some ⟨built (xs ++ [x])⟩ := by
  have hlen : (placed (xs.length + 1) (tuples (whole xs))).length = xs.length := by
    rw [placed_length, length_whole]
  have hin := inside_placed (fits_whole xs) (xs.length + 1) [] []
  simp only [length_nil, Nat.add_zero, nil_append, append_nil] at hin
  have happ := append_assemble (by rwa [hlen]) (show whole [x] ≠ [] by simp [whole])
  rw [whole_fst] at happ
  have hw : whole (xs ++ [x]) = whole xs ++ whole [x] := by simp [whole]
  have ht : tuples (whole (xs ++ [x])) = tuples (whole xs) ++ tuples (whole [x]) := by
    rw [hw, tuples, map_append]
    rfl
  have hone : (whole [x]).length = 1 := rfl
  rw [built, happ, built, ht, placed_append, hlen, hone, placed_shift, length_append,
    length_singleton, dataOf, dataOf, dataOf, flatMap_append]

theorem len_built : (IntTuple.mk (built xs)).len = some xs.length := by
  have h := (lays_built xs).header
  simp [IntTuple.len, h, placed_length, tuples, whole]

theorem built_getElem? {xs : List IntTuple} {i : ℕ} {x : IntTuple} (hx : xs[i]? = some x)
    (storage : ℕ) : ∃ o, (placed storage (tuples (whole xs)))[i]? = some (Entry.nested o x.store) := by
  induction xs generalizing storage i with
  | nil => simp at hx
  | cons y xs ih =>
    cases i with
    | zero =>
      obtain rfl : y = x := by simpa using hx
      exact ⟨storage, by simp [whole, tuples, Item.entry, size]⟩
    | succ i => exact ih (by simpa using hx) (storage + y.store.length)

/-- Taking out an element copies the words that it refers to. -/
theorem get_built {xs : List IntTuple} {i n : ℕ} {x : IntTuple} (hx : xs[i]? = some x)
    (hd : Denotes x.store n t) (hn : n ≤ x.size) :
    (IntTuple.mk (built xs)).get i = some ⟨x.store.take n⟩ := by
  obtain ⟨o, ho⟩ := built_getElem? hx (xs.length + 1)
  have hi : i < xs.length := (List.getElem_of_getElem? hx).1
  obtain ⟨hread, hbase, pre, post, hstore, hpre⟩ := (lays_built xs).slot i _ ho
  rw [placed_length, length_whole] at hbase
  have hlt : ¬ minimumValue ≤ Entry.word (i + 1) (Entry.nested o x.store) :=
    not_le.mpr (word_nested_lt (by omega))
  have hcalc := hd.calculateTupleSize (show x.store.length ≤ (built xs).length by
    rw [hstore]
    simp only [length_append]
    omega) pre post
  have hcopy := copyFrom_window pre (x.store.take n) (x.store.drop n ++ post)
  have hwin : pre ++ x.store.take n ++ (x.store.drop n ++ post) = built xs := by
    rw [append_assoc, ← append_assoc (x.store.take n), take_append_drop, ← append_assoc, ← hstore]
  rw [hwin, length_take, min_eq_left (show n ≤ x.store.length from hn)] at hcopy
  rw [← hstore, hpre] at hcalc
  rw [hpre] at hcopy
  simp only [IntTuple.get, len_built, some_bind, if_pos hi, uncheckedGet,
    hread, if_neg hlt, subOffset_word, Int.toNat_natCast, size, hcalc, hcopy]
  rfl

/-! ### Extending -/

/-- What `extend` puts into the slot of an entry. -/
def Entry.item : Entry → Item
  | direct v => Item.int v
  | nested _ w => Item.tuple ⟨w⟩ w.length

theorem foldlM_eq_placeAll {f : IntArray × ℕ → ℕ → Option (IntArray × ℕ)} {items : List Item}
    {pos : ℕ} (h : ∀ (i : ℕ) (x : Item), items[i]? = some x →
      ∀ st, f st i = x.write st.1 (pos + i) st.2) (store : IntArray) (storage : ℕ) :
    (range items.length).foldlM f (store, storage) = placeAll store pos storage items := by
  induction items using reverseRecOn with
  | nil => rfl
  | append_singleton items x ih =>
    have hinit := ih fun i y hy st => h i y (by
      rw [getElem?_append_left (List.getElem_of_getElem? hy).1, hy]) st
    have hlast := h items.length x (by simp)
    rw [length_append, length_singleton, range_succ, foldlM_append, hinit, placeAll_append]
    refine congrArg _ (funext fun r => ?_)
    simp [hlast]

/-- A loop of `extend` copies the elements out and puts them one behind the other. -/
theorem extendFrom_eq (ha : Denotes a n t) :
    ∃ items, Forall₂ Item.Denotes items t.children ∧ 1 + items.length + (dataOf items).length = n ∧
      (items.map Item.words).sum = (dataOf items).length ∧
      (∀ v, t = Nest.leaf v → items = [Item.int v]) ∧
      (∀ ts, t = Nest.node ts → ∀ v, items ≠ [Item.int v]) ∧
      ∀ base store storage, (IntTuple.mk a).extendFrom base store storage
        = placeAll store (base + 1) storage items := by
  obtain ⟨es, lays, hes, rfl, hleaf, hnode⟩ := ha.exists_entries
  have hchildren : t.children.length = es.length := hes.length_eq.symm
  have hsum : ∀ f : Item → ℕ, (∀ e : Entry, f e.item = e.words) →
      ((es.map Entry.item).map f).sum = (es.map Entry.words).sum := by
    intro f hf
    rw [map_map]
    exact congrArg sum (map_congr_left fun e _ => hf e)
  have hdata : (dataOf (es.map Entry.item)).length = (es.map Entry.words).sum := by
    rw [dataOf, length_flatMap]
    exact hsum _ fun e => by cases e <;> rfl
  have hwords := hsum Item.words fun e => by cases e <;> rfl
  refine ⟨es.map Entry.item, ?_, by rw [hdata, length_map, words], by rw [hwords, hdata],
    (fun v hv => by rw [hleaf v hv]; rfl), ?_, ?_⟩
  · obtain ⟨data, -, hin⟩ := lays.assemble
    rw [forall₂_map_left_iff]
    refine ((forall₂_and_left _ _).mpr ⟨hin, hes⟩).imp fun e s h => ?_
    obtain ⟨hin, hd⟩ := h
    cases e with
    | direct v => exact ⟨hin, hd⟩
    | nested o w => exact Denotes.nestable hd
  · intro ts hts v hv
    obtain ⟨e, rfl, he⟩ := map_eq_singleton_iff.mp hv
    refine hnode ts hts ?_
    cases e with
    | direct u => exact ⟨u, rfl⟩
    | nested o w => cases he
  intro base store storage
  have hloop : ∀ f : IntArray × ℕ → ℕ → Option (IntArray × ℕ), (∀ (i : ℕ) (x : Item),
      (es.map Entry.item)[i]? = some x → ∀ st, f st i = x.write st.1 (base + 1 + i) st.2) →
      (range es.length).foldlM f (store, storage)
        = placeAll store (base + 1) storage (es.map Entry.item) := by
    intro f hf
    have h := foldlM_eq_placeAll hf store storage
    rwa [length_map] at h
  simp only [extendFrom, ha.len, hchildren, some_bind]
  refine hloop _ fun i x hx st => ?_
  obtain ⟨e, he, rfl⟩ : ∃ e, es[i]? = some e ∧ e.item = x := by
    rw [getElem?_map] at hx
    exact Option.map_eq_some_iff.mp hx
  have hi : i < es.length := (List.getElem_of_getElem? he).1
  obtain ⟨hread, hslot⟩ := lays.slot i e he
  cases e with
  | direct v =>
    have hread' : a.getitem (i + 1) = some v := hread
    have hv : minimumValue ≤ v := hslot
    simp [isValueAt, valueAt, hread', hv, Entry.item, Item.write, Nat.add_right_comm base 1 i]
  | nested o w =>
    obtain ⟨ho, pre, post, hwin, rfl⟩ := hslot
    obtain ⟨s, -, hw⟩ := exists_denotes hes he
    have hget := get_of_window hwin ha.len (by omega) (by omega) hread hw
    have hval : (IntTuple.mk a).isValueAt i = some false := by
      simp [isValueAt, hread, word_nested_lt (w := w) (show i + 1 < pre.length by omega)]
    simp [hval, hget, Entry.item, Item.write, Nat.add_right_comm base 1 i]

/-- The elements of two tuples, copied out of both: words that nothing refers to end up
behind the others. -/
theorem extend_spec {a b : IntArray} {n m : ℕ} {t u : Nest} (ha : Denotes a n t)
    (hb : Denotes b m u) (hn : n ≤ a.length) (hm : m ≤ b.length) (hu : u.children ≠ []) :
    ∃ c, (IntTuple.mk a).extend ⟨b⟩ = some ⟨c⟩ ∧ Nestable c (n + m - 1) (t.extend u) ∧
      c.length = a.length + b.length - 1 := by
  obtain ⟨xs, hxs, hxn, hxw, -, -, hx⟩ := extendFrom_eq ha
  obtain ⟨ys, hys, hyn, hyw, hyleaf, hynode, hy⟩ := extendFrom_eq hb
  have hxlen : t.children.length = xs.length := hxs.length_eq.symm
  have hylen : u.children.length = ys.length := hys.length_eq.symm
  have hlen : (xs ++ ys).length = xs.length + ys.length := length_append
  have hdata : dataOf (xs ++ ys) = dataOf xs ++ dataOf ys := flatMap_append
  have hu' : ys.length ≠ 0 := by
    rw [← hylen]
    exact fun h => hu (length_eq_zero_iff.mp h)
  let r := a.length + b.length - 1 - (1 + (xs ++ ys).length + (dataOf (xs ++ ys)).length)
  have hr : a.length + b.length - 1 = 1 + (xs ++ ys).length + (dataOf (xs ++ ys)).length + r := by
    simp only [r, hdata, hlen, length_append]
    omega
  obtain ⟨store, hstore, hplace⟩ := placeAll_fresh (xs ++ ys) r
  have hall : Forall₂ Item.Denotes (xs ++ ys) (t.children ++ u.children) := rel_append hxs hys
  refine ⟨assemble (placed ((xs ++ ys).length + 1) (xs ++ ys)) (dataOf (xs ++ ys) ++ init r),
    ?_, ?_, ?_⟩
  · simp only [IntTuple.extend, hb.len, hylen, Option.bind_eq_bind, Option.bind_some, if_neg hu',
      ha.len, hxlen, size, ← hlen]
    rw [hr, hstore, Option.bind_some]
    -- the two loops together fill the slots of both tuples
    rw [placeAll_append] at hplace
    obtain ⟨st, hfirst, hsecond⟩ := Option.bind_eq_some_iff.mp hplace
    rw [Nat.add_comm 1] at hsecond
    simp only [hx, hy, Nat.zero_add, hfirst, Option.bind_some, hsecond]
    rfl
  · have hwords : words (placed ((xs ++ ys).length + 1) (xs ++ ys)) = n + m - 1 := by
      rw [words, placed_length, sum_placed_words hall, map_append, sum_append, hxw, hyw, hlen]
      omega
    have hl : (assemble (placed ((xs ++ ys).length + 1) (xs ++ ys)) (dataOf (xs ++ ys))).length
        = n + m - 1 := by
      simp only [assemble, length_append, length_cons, entryWords_length, placed_length, hdata]
      omega
    have hstored : assemble (placed ((xs ++ ys).length + 1) (xs ++ ys)) (dataOf (xs ++ ys) ++ init r)
        = assemble (placed ((xs ++ ys).length + 1) (xs ++ ys)) (dataOf (xs ++ ys)) ++ init r := by
      simp [assemble]
    have hlays := lays_placed (forall_fits hall)
    have hplaced := forall₂_placed hall ((xs ++ ys).length + 1)
    rw [hstored]
    refine ⟨by rw [length_append, hl]; omega, ?_⟩
    rw [← hl, take_left, hl, ← hwords]
    cases hcase : t.children with
    | cons s ss =>
      -- at least two elements
      have htwo : ∀ v, xs ++ ys ≠ [Item.int v] := by
        intro v hv
        have hl := congrArg length hv
        rw [hlen, ← hxlen, hcase] at hl
        simp only [length_cons, length_nil] at hl
        omega
      have hext : t.extend u = Nest.node (t.children ++ u.children) := by
        simp [Nest.extend, hcase, hu]
      rw [hext]
      exact denotes_node hlays (not_isLeaf_placed htwo _) hplaced
    | nil =>
      have hxnil : xs = [] := length_eq_zero_iff.mp (by rw [← hxlen, hcase]; rfl)
      have hext : t.extend u = u := by simp [Nest.extend, hcase, hu]
      subst hxnil
      rw [hext]
      rw [hcase] at hplaced
      cases u with
      | leaf v =>
        rw [hyleaf v rfl] at hlays ⊢
        exact Denotes.leaf hlays
      | node us => exact denotes_node hlays (not_isLeaf_placed (hynode us rfl) _) hplaced
  · simp only [assemble, length_append, length_cons, entryWords_length, placed_length]
    simp only [length_append, init, length_replicate] at hr ⊢
    omega

end Constructors

/-! ### Tuples without nesting -/

theorem entryWords_direct (pos : ℕ) (vs : List ℤ) :
    entryWords pos (vs.map Entry.direct) = vs.map some := by
  induction vs generalizing pos with
  | nil => rfl
  | cons v vs ih => simp [ih, Entry.word]

/-- Integers in their slots; more words may follow. -/
theorem denotes_ints (h : ∀ v ∈ vs, minimumValue ≤ v) (more : IntArray) :
    Denotes (some (vs.length : ℤ) :: vs.map some ++ more) (1 + vs.length) (ofLeaves vs) := by
  have hlays : Lays (some (vs.length : ℤ) :: vs.map some ++ more) (vs.map Entry.direct) := by
    have hl := lays_assemble (vs.map Entry.direct) more (by
      intro e he
      obtain ⟨v, hv, rfl⟩ := mem_map.mp he
      exact h v hv)
    rwa [assemble, entryWords_direct, length_map] at hl
  have hwords : words (vs.map Entry.direct) = 1 + vs.length := by
    have hzero : (vs.map Entry.direct).map Entry.words = vs.map fun _ => 0 := by
      rw [map_map]
      rfl
    simp [words, hzero]
  by_cases hone : ∃ v, vs = [v]
  · obtain ⟨v, rfl⟩ := hone
    exact Denotes.leaf hlays
  have hnode : ofLeaves vs = node (vs.map leaf) := by
    unfold ofLeaves
    split
    · exact absurd ⟨_, rfl⟩ hone
    · rfl
  rw [hnode, ← hwords]
  refine denotes_node hlays ?_ ?_
  · rintro ⟨v, hv⟩
    refine hone ⟨v, ?_⟩
    have hinj : Function.Injective Entry.direct := fun x y hxy => by cases hxy; rfl
    exact map_injective_iff.mpr hinj (by simpa using hv)
  · rw [forall₂_map_left_iff, forall₂_map_right_iff]
    exact forall₂_same.mpr fun v _ => rfl

theorem exact_ofInts (h : ∀ v ∈ vs, minimumValue ≤ v) : Exact (ofInts vs) (ofLeaves vs) := by
  have hd := denotes_ints h []
  rw [append_nil] at hd
  rw [Exact, show (ofInts vs).size = 1 + vs.length by simp [size, ofInts]; omega]
  exact hd

/-- The integers of a store are at least the smallest one. -/
theorem Denotes.minimumValue_le (h : Denotes a n t) : ∀ v ∈ t.leaves, minimumValue ≤ v := by
  induction t using induct generalizing a n with
  | leaf v =>
    intro u hu
    rw [leaves_leaf, mem_singleton] at hu
    subst hu
    exact h.isValue_leaf.2.2
  | node ts ih =>
    intro v hv
    rw [leaves_node, mem_flatMap] at hv
    obtain ⟨s, hs, hv⟩ := hv
    obtain ⟨i, hi⟩ := mem_iff_getElem?.mp hs
    obtain ⟨e, -, he, -⟩ := h.get hi
    exact ih s hs he v hv

theorem Denotes.countValues (h : Denotes a n t) {fuel : ℕ}
    (hfuel : a.length ≤ fuel) : countValues fuel ⟨a⟩ = some t.leaves.length := by
  induction t using induct generalizing a n fuel with
  | leaf v =>
    obtain ⟨fuel, rfl⟩ := h.exists_fuel hfuel
    simp [IntTuple.countValues, h.len, h.isValueAt_leaf.1]
  | node ts ih =>
    obtain ⟨fuel, rfl⟩ := h.exists_fuel hfuel
    let st : ℕ → ℕ := fun i => ((ts.take i).flatMap leaves).length
    have hn : (Nest.node ts).leaves.length = st ts.length := by
      simp only [st, take_length, leaves_node]
    simp only [IntTuple.countValues, h.len, children_node, some_bind]
    rw [hn]
    refine foldlM_range st fun i hi => ?_
    have hs : ts[i]? = some ts[i] := getElem?_eq_getElem hi
    have hnext : st (i + 1) = st i + ts[i].leaves.length := by
      simp only [st, take_succ_eq_append_getElem hi, flatMap_append, length_append,
        flatMap_singleton]
    rw [hnext]
    rcases h.child hs with ⟨v, hv, -, hval, -⟩ | ⟨e, hval, hget, he, hlt⟩
    · simp [hval, hv]
    · have hrec := ih ts[i] (getElem_mem hi) he
        (show e.store.length ≤ fuel by simp only [size] at hlt; omega)
      simp [hval, hget, hrec]

/-- Integers written one behind the other into fresh words. -/
def filled (p : IntArray) (k : ℕ) (vs : List ℤ) : IntArray × ℕ :=
  (p ++ vs.map some ++ init (k - vs.length), p.length + vs.length)

theorem setitem_filled (p : IntArray) (k : ℕ) (vs : List ℤ) (h : vs.length < k) (v : ℤ) :
    IntArray.setitem (filled p k vs).1 (filled p k vs).2 v = some (filled p k (vs ++ [v])).1 := by
  have hinit : init (k - vs.length) = none :: init (k - (vs.length + 1)) := by
    rw [show k - vs.length = k - (vs.length + 1) + 1 by omega]
    rfl
  have hset := set_length_append (p ++ vs.map some) (init (k - (vs.length + 1))) none (some v)
  rw [length_append, length_map] at hset
  simp only [filled, hinit]
  rw [setitem_of_lt (by simp), hset]
  simp

theorem Denotes.fill (h : Denotes a n t) {fuel : ℕ} (hfuel : a.length ≤ fuel) (p : IntArray) {k : ℕ}
    (hk : vs.length + t.leaves.length ≤ k) :
    fill fuel (filled p k vs).1 ⟨a⟩ (filled p k vs).2 = some (filled p k (vs ++ t.leaves)) := by
  induction t using induct generalizing a n fuel vs with
  | leaf v =>
    obtain ⟨fuel, rfl⟩ := h.exists_fuel hfuel
    have hset := setitem_filled p k vs (by simp at hk; omega) v
    obtain ⟨hval, hv⟩ := h.isValueAt_leaf
    simp only [IntTuple.fill, h.len, children_leaf, length_singleton, some_bind, range_one,
      foldlM_cons, foldlM_nil, hval, hv, if_true, hset]
    simp [filled, Nat.add_assoc]
  | node ts ih =>
    obtain ⟨fuel, rfl⟩ := h.exists_fuel hfuel
    let st : ℕ → IntArray × ℕ := fun i => filled p k (vs ++ (ts.take i).flatMap leaves)
    have h0 : ((filled p k vs).1, (filled p k vs).2) = st 0 := by simp [st]
    have hn : filled p k (vs ++ (Nest.node ts).leaves) = st ts.length := by
      simp only [st, take_length, leaves_node]
    simp only [IntTuple.fill, h.len, children_node, Option.bind_eq_bind, Option.bind_some]
    rw [hn, h0]
    refine foldlM_range st fun i hi => ?_
    have hs : ts[i]? = some ts[i] := getElem?_eq_getElem hi
    -- the leaves so far and those of this element fit
    have hroom : (vs ++ (ts.take i).flatMap leaves).length + ts[i].leaves.length ≤ k := by
      have hsplit : ts.flatMap leaves = (ts.take i).flatMap leaves
          ++ (ts[i].leaves ++ (ts.drop (i + 1)).flatMap leaves) := by
        rw [← flatMap_cons, ← drop_eq_getElem_cons hi, ← flatMap_append, take_append_drop]
      rw [leaves_node, hsplit] at hk
      simp only [length_append] at hk ⊢
      omega
    have hnext : st (i + 1) = filled p k ((vs ++ (ts.take i).flatMap leaves) ++ ts[i].leaves) := by
      simp only [st, take_succ_eq_append_getElem hi, flatMap_append,
        flatMap_singleton, append_assoc]
    rw [hnext]
    rcases h.child hs with ⟨v, hv, -, hval, hvalue, -⟩ | ⟨e, hval, hget, he, hlt⟩
    · rw [hv, leaves_leaf] at hroom ⊢
      have hset := setitem_filled p k (vs ++ (ts.take i).flatMap leaves)
        (by simp only [length_singleton] at hroom; omega) v
      simp only [st, hval, hvalue, if_true, Option.bind_some, hset]
      simp [filled, Nat.add_assoc]
    · have hrec := ih ts[i] (getElem_mem hi) he
        (show e.store.length ≤ fuel by simp only [size] at hlt; omega) hroom
      simp only [st, hval, hget, Option.bind_some, if_false, Bool.false_eq_true]
      exact hrec

/-- Flattening keeps the integers in their order. -/
theorem flatten_spec (h : Denotes a n t) :
    (IntTuple.mk a).flatten = some ⟨a⟩ ∧ t = ofLeaves t.leaves ∨
      (IntTuple.mk a).flatten = some (ofInts t.leaves) := by
  cases t with
  | leaf v =>
    refine Or.inl ⟨?_, rfl⟩
    simp [flatten, h.len, h.isValue_leaf.1]
  | node ts =>
    by_cases hnil : ts = []
    · subst hnil
      exact Or.inl ⟨by simp [flatten, h.len], rfl⟩
    refine Or.inr ?_
    have hlen : ts.length ≠ 0 := fun hl => hnil (length_eq_zero_iff.mp hl)
    have hcount := h.countValues (le_refl a.length)
    have hfill := h.fill (le_refl a.length) [some ((node ts).leaves.length : ℤ)]
      (show ([] : List ℤ).length + (node ts).leaves.length ≤ (node ts).leaves.length by
        simp)
    simp only [filled, map_nil, append_nil, length_nil, Nat.sub_zero,
      length_singleton, Nat.add_zero, nil_append, Nat.sub_self] at hfill
    simp only [flatten, h.len, children_node, some_bind, if_neg hlen,
      h.isValue_node, Bool.false_eq_true, if_false, size, hcount, numElems]
    rw [show some ((node ts).leaves.length : ℤ) :: init (node ts).leaves.length = [some ((node
      ts).leaves.length : ℤ)] ++ init (node ts).leaves.length from rfl, hfill]
    simp [ofInts, init]

/-! ### Copies, slices and replaced elements -/

theorem ownedCopy_eq (t : IntTuple) : t.ownedCopy = some t := by
  simp [ownedCopy, size, copyFrom_all]

end IntTuple

namespace Slice

theorem mem_range {fuel : ℕ} {start stop step x : ℤ} (h : x ∈ range fuel start stop step) :
    0 < step ∧ start ≤ x ∧ x < stop ∨ step < 0 ∧ stop < x ∧ x ≤ start := by
  induction fuel generalizing start with
  | zero => simp [range] at h
  | succ fuel ih =>
    simp only [range] at h
    split_ifs at h with hgo
    · rcases mem_cons.mp h with rfl | h
      · omega
      · have := ih h
        omega
    · simp at h

theorem clamp_bounds {length : ℤ} (hlen : 0 ≤ length) (bound : ℤ) :
    0 ≤ clamp length true bound ∧ clamp length true bound ≤ length ∧
      -1 ≤ clamp length false bound ∧ clamp length false bound ≤ length - 1 := by
  simp only [clamp, if_true, Bool.false_eq_true, if_false]
  refine ⟨?_, ?_, ?_, ?_⟩ <;> split_ifs <;> omega

/-- A slice stays inside of the container. -/
theorem positions_lt {span : Slice} {length i : ℕ} (h : i ∈ span.positions length) :
    i < length := by
  obtain ⟨x, hx, rfl⟩ := mem_map.mp h
  have hlen : (0 : ℤ) ≤ length := by omega
  have hin : 0 ≤ x ∧ x < length := by
    rcases mem_range hx with ⟨hstep, hlo, hhi⟩ | ⟨hstep, hlo, hhi⟩
    · -- forwards: from at least zero to at most the length
      have hpos : decide (0 < span.step.getD 1) = true := decide_eq_true hstep
      simp only [hpos] at hlo hhi
      constructor
      · cases hs : span.start with
        | none => simp [hs] at hlo; omega
        | some b => have := clamp_bounds hlen b; simp [hs] at hlo; omega
      · cases hs : span.stop with
        | none => simp [hs] at hhi; omega
        | some b => have := clamp_bounds hlen b; simp [hs] at hhi; omega
    · -- backwards: from at most the last position to at least the one before the first
      have hneg : decide (0 < span.step.getD 1) = false := decide_eq_false (by omega)
      simp only [hneg] at hlo hhi
      constructor
      · cases hs : span.stop with
        | none => simp [hs] at hlo; omega
        | some b => have := clamp_bounds hlen b; simp [hs] at hlo; omega
      · cases hs : span.start with
        | none => simp [hs] at hhi; omega
        | some b => have := clamp_bounds hlen b; simp [hs] at hhi; omega
  omega

end Slice

namespace IntTuple

section Elements

variable {a : IntArray} {n : ℕ} {t : Nest}

theorem slice_spec (h : Denotes a n t) (span : Slice) :
    ∃ e, (IntTuple.mk a).slice span = some e ∧
      Exact e (t.select (span.positions t.children.length)) := by
  have hget : ∀ i ∈ span.positions t.children.length,
      ∃ e, (IntTuple.mk a).get i = some e ∧ Exact e (t.children.getD i (leaf 0)) := by
    intro i hi
    have hlt := Slice.positions_lt hi
    have hs : t.children[i]? = some (t.children.getD i (leaf 0)) := by
      simp [getElem?_eq_getElem hlt]
    exact h.getitem hs
  obtain ⟨es, hes, hall⟩ := exists_mapM hget
  obtain ⟨e, he, hd⟩ := ofTuples_exact hall
  refine ⟨e, by simp [slice, h.len, hes, he], ?_⟩
  have hsel : (span.positions t.children.length).map (fun i => t.children.getD i (leaf 0))
      = (span.positions t.children.length).filterMap (t.children[·]?) := by
    rw [← filterMap_eq_map]
    refine filterMap_congr fun i hi => ?_
    have hlt := Slice.positions_lt hi
    simp [getElem?_eq_getElem hlt]
  rw [select, ← hsel]
  exact hd

theorem replaceEntry_spec {v : IntArray} {m : ℕ} (idx : ℕ) {u : Nest} (h : Denotes a n t)
    (hv : Nestable v m u) : ∃ e k, (IntTuple.mk a).replaceEntry idx ⟨v⟩ = some e ∧
      Denotes e.store k (t.replace idx u) ∧ k ≤ e.size := by
  let ts := t.children.set idx u
  have hlen : ts.length = t.children.length := by simp [ts]
  -- after `i` turns the result holds the first `i` elements
  let inv : ℕ → IntTuple → Prop := fun i r =>
    ∃ k, Denotes r.store k (node (ts.take i)) ∧ k ≤ r.size
  have hstep : ∀ i < t.children.length, ∀ r, inv i r → ∃ r', (do
      if i ≠ idx then r.append [← (IntTuple.mk a).get i] else r.append [⟨v⟩]) = some r' ∧
        inv (i + 1) r' := by
    intro i hi r ⟨k, hk, hle⟩
    have hnext : ts.take (i + 1) = ts.take i ++ [ts[i]] := take_succ_eq_append_getElem (by omega)
    -- whatever tuple is appended, it denotes the element of the result
    have happ : ∀ e j, Nestable e.store j ts[i] → ∃ r', r.append [e] = some r' ∧ inv (i + 1) r' := by
      intro e j he
      obtain ⟨b, hb, hd, hbl⟩ := append_spec hk (show [(e, j)] ≠ [] by simp)
        (Forall₂.cons he Forall₂.nil)
      refine ⟨⟨b⟩, hb, _, by rw [hnext]; exact hd, ?_⟩
      have hj := he.1
      simp only [size] at hle ⊢
      rw [hbl]
      simp [tuples, dataOf, Item.data]
      omega
    by_cases hidx : i = idx
    · subst hidx
      have hts : ts[i] = u := by simp [ts]
      obtain ⟨r', hr', hinv⟩ := happ ⟨v⟩ m (by rw [hts]; exact hv)
      exact ⟨r', by simpa using hr', hinv⟩
    · have hts : t.children[i]? = some ts[i] := by
        simp [ts, getElem_set_ne (Ne.symm hidx), getElem?_eq_getElem hi]
      obtain ⟨e, hget, he⟩ := h.getitem hts
      obtain ⟨r', hr', hinv⟩ := happ e e.size (Denotes.nestable he)
      exact ⟨r', by simp [hidx, hget, hr'], hinv⟩
  obtain ⟨r, hr, k, hk, hle⟩ := exists_foldlM_range inv (s := empty) ⟨_, exact_empty, le_rfl⟩ hstep
  refine ⟨r, k, ?_, ?_, hle⟩
  · simp only [replaceEntry, h.len, some_bind]
    exact hr
  · rw [← hlen, take_length] at hk
    exact hk

theorem Lays.set {es : List Entry} (h : Lays a es) {idx : ℕ} (hidx : idx < es.length) {v : ℤ}
    (hv : minimumValue ≤ v) : Lays (a.set (idx + 1) (some v)) (es.set idx (Entry.direct v)) := by
  obtain ⟨data, rfl, hin⟩ := h.assemble
  have hset : (IntTuple.assemble es data).set (idx + 1) (some v)
      = IntTuple.assemble (es.set idx (Entry.direct v)) data := by
    rw [IntTuple.assemble, IntTuple.assemble, entryWords_set, length_set, cons_append,
      set_cons_succ, set_append_left _ _ (by rwa [entryWords_length])]
    rfl
  rw [hset]
  refine lays_assemble _ _ fun e he => ?_
  rw [length_set]
  rcases mem_or_eq_of_mem_set he with he | rfl
  · exact hin e he
  · exact hv

/-- Writing an integer in place; the words of the old element stay where they are. -/
theorem replaceEntryInt_spec {idx : ℕ} {v : ℤ} (h : Denotes a n t) (hidx : idx < t.children.length)
    (hv : minimumValue ≤ v) :
    ∃ m, (IntTuple.mk a).replaceEntryInt idx v = some ⟨a.set (idx + 1) (some v)⟩ ∧
      Denotes (a.set (idx + 1) (some v)) m (t.replaceInt idx v) ∧ m ≤ n := by
  obtain ⟨es, lays, hes, rfl, -, -⟩ := h.exists_entries
  have hlen : t.children.length = es.length := hes.length_eq.symm
  have hlays := lays.set (hlen ▸ hidx) hv
  have hlt : idx + 1 < a.length :=
    getitem_lt (lays.slot idx _ (getElem?_eq_getElem (hlen ▸ hidx))).1
  have hrep : (IntTuple.mk a).replaceEntryInt idx v = some ⟨a.set (idx + 1) (some v)⟩ := by
    simp [replaceEntryInt, setitem_of_lt hlt]
  have hwords : words (es.set idx (Entry.direct v)) ≤ words es := by
    have hi : idx < (es.map Entry.words).length := by rwa [length_map, ← hlen]
    have hsum := sum_take_add_sum_drop (es.map Entry.words) idx
    rw [drop_eq_getElem_cons hi, sum_cons] at hsum
    rw [words, words, length_set, map_set, sum_set, if_pos hi, Entry.words]
    omega
  refine ⟨_, hrep, ?_, hwords⟩
  by_cases hone : t.children.length = 1
  · obtain ⟨e, rfl⟩ := length_eq_one_iff.mp (hlen ▸ hone)
    obtain rfl : idx = 0 := by omega
    rw [Nest.replaceInt, if_pos hone]
    exact Denotes.leaf hlays
  rw [Nest.replaceInt, if_neg hone]
  refine denotes_node hlays ?_ ?_
  · rintro ⟨u, hu⟩
    have hl := congrArg length hu
    rw [length_set, ← hlen] at hl
    exact hone hl
  rw [forall₂_iff_get] at hes ⊢
  refine ⟨by simp [hlen], fun i hi hi' => ?_⟩
  rw [length_set] at hi hi'
  by_cases hcase : i = idx
  · subst hcase
    simp [Entry.Denotes]
  · have hd := hes.2 i hi hi'
    simpa [getElem_set_ne (Ne.symm hcase)] using hd

end Elements

end IntTuple
