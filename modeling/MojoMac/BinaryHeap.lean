/-
`BinaryHeap`, the list-backed binary max-heap of the collections library.

The embedding follows `binary_heap.mojo`: `push` appends and pulls the new
element up (`_heapify_up`), `pop` swaps the last element into the root, sinks
the hole to the bottom along the larger children and then pulls the element
back up (`_heapify_down`).  Elements are moved through an uninitialised hole;
here a slot keeps its old value until it is written again, and no step reads
it in between.  A read past the end of the list is `none`.

* `push_spec`, `pop_spec` — one operation on a list in heap order;
* `run_spec` — what holds after every interleaving of pushes and pops.
-/
import MojoMac.HeapOrder

open HeapOrder List

/-- The backing storage of the heap. -/
structure BinaryHeap (α : Type*) where
  data : List α

namespace BinaryHeap

variable {α : Type*} [LinearOrder α] (h : BinaryHeap α)

/-! ### The operations -/

def empty : BinaryHeap α := ⟨[]⟩

/-- The loop of `_heapify_up`: parents smaller than `element` move down into
the hole at `pos`. -/
def heapifyUpLoop (element : α) (start pos : ℕ) (data : List α) : Option (List α × ℕ) :=
  if _h : start < pos then
    match data[(pos - 1) / 2]? with
    | none => none
    | some p =>
      if element ≤ p then some (data, pos)
      else heapifyUpLoop element start ((pos - 1) / 2) (data.set pos p)
  else some (data, pos)
  termination_by pos

/-- `_heapify_up`: pull the element at `pos` up, not beyond `start`. -/
def heapifyUp (start pos : ℕ) (data : List α) : Option (List α) := do
  let element ← data[pos]?
  let (data, pos) ← heapifyUpLoop element start pos data
  some (data.set pos element)

/-- The loop of `_heapify_down`: the larger of the two children of the hole
moves up, as long as there are two.  Returns the storage, the hole and its
first child. -/
def heapifyDownLoop (pos child : ℕ) (data : List α) : Option (List α × ℕ × ℕ) :=
  if child ≤ data.length - 2 then
    match data[child]?, hr : data[child + 1]? with
    | some l, some r =>
      if l ≤ r then heapifyDownLoop (child + 1) (2 * (child + 1) + 1) (data.set pos r)
      else heapifyDownLoop child (2 * child + 1) (data.set pos l)
    | _, _ => none
  else some (data, pos, child)
  termination_by data.length - child
  decreasing_by
    all_goals
      have := (List.getElem_of_getElem? hr).fst
      simp only [List.length_set]
      omega

/-- `_heapify_down`: sink the element at `pos` to the bottom, then pull it
up again. -/
def heapifyDown (pos : ℕ) (data : List α) : Option (List α) := do
  let element ← data[pos]?
  let (data, hole, child) ← heapifyDownLoop pos (2 * pos + 1) data
  if child + 1 = data.length then
    -- the hole ends above a last, only child
    let x ← data[child]?
    heapifyUp pos child ((data.set hole x).set child element)
  else
    heapifyUp pos hole (data.set hole element)

def push (val : α) : Option (BinaryHeap α) := do
  let data ← heapifyUp 0 h.data.length (h.data ++ [val])
  some ⟨data⟩

/-- `pop`; `none` is the abort on an empty heap. -/
def pop : Option (α × BinaryHeap α) := do
  let item ← h.data.getLast?
  let data := h.data.dropLast
  match data[0]? with
  | none => some (item, ⟨data⟩)
  | some root =>
    let data ← heapifyDown 0 (data.set 0 item)
    some (root, ⟨data⟩)

def peek : Option α := h.data[0]?

/-- The multiset of the elements held. -/
def contents : Multiset α := h.data

/-! ### The loops -/

/-- `_heapify_up` on a list with a hole: the result is a heap with the
elements of the list that fills the hole. -/
theorem heapifyUpLoop_spec (element : α) (pos : ℕ) (data : List α)
    (h : Rising data pos element) (hpos : pos < data.length) :
    ∃ data' pos', heapifyUpLoop element 0 pos data = some (data', pos') ∧
      MaxHeap (data'.set pos' element) ∧ (data'.set pos' element).Perm (data.set pos element) := by
  induction pos using Nat.strong_induction_on generalizing data with
  | _ pos ih =>
    rw [heapifyUpLoop]
    by_cases h0 : 0 < pos
    · obtain ⟨p, hp⟩ : ∃ p, data[(pos - 1) / 2]? = some p := ⟨_, getElem?_eq_getElem (by omega)⟩
      rw [dif_pos h0, hp]
      by_cases hle : element ≤ p
      · refine ⟨data, pos, by simp [hle], h.fill hpos fun _ q hq => ?_, Perm.refl _⟩
        rw [hp, Option.some_inj] at hq
        exact hq ▸ hle
      · obtain ⟨data', pos', hrun, hheap, hperm⟩ := ih ((pos - 1) / 2) (by omega) (data.set pos p)
            (h.rise h0 hpos hp (not_le.mp hle)) (by simp only [length_set]; omega)
        refine ⟨data', pos', by simpa [hle] using hrun, hheap, hperm.trans ?_⟩
        exact set_set_perm hpos hp (by omega)
    · refine ⟨data, pos, by rw [dif_neg h0], h.fill hpos fun h1 => absurd h1 h0, ?_⟩
      exact Perm.refl _

variable {element : α} {data : List α}

theorem heapifyUp_spec {pos : ℕ} (h : Rising data pos element) (hpos : pos < data.length)
    (he : data[pos]? = some element) :
    ∃ data', heapifyUp 0 pos data = some data' ∧ MaxHeap data' ∧ data'.Perm data := by
  obtain ⟨data', pos', hrun, hheap, hperm⟩ := heapifyUpLoop_spec element pos data h hpos
  refine ⟨data'.set pos' element, by simp [heapifyUp, he, hrun], hheap, hperm.trans ?_⟩
  rw [set_eq_self he]

/-- The sinking loop ends with the hole at a leaf, or above a last, only
child. -/
theorem heapifyDownLoop_spec (element : α) (pos : ℕ) (data : List α)
    (h : Holed data pos) (hpos : pos < data.length) :
    ∃ data' hole, heapifyDownLoop pos (2 * pos + 1) data = some (data', hole, 2 * hole + 1) ∧
      Holed data' hole ∧ hole < data'.length ∧ data'.length = data.length ∧
      data'.length ≤ 2 * hole + 2 ∧ (data'.set hole element).Perm (data.set pos element) := by
  -- the hole only moves down, so the induction is on its distance to the end
  induction hn : data.length - pos using Nat.strong_induction_on generalizing pos data with
  | _ n ih =>
    rw [heapifyDownLoop]
    by_cases hc : 2 * pos + 1 ≤ data.length - 2
    · rw [if_pos hc]
      have hlen : 2 * pos + 2 < data.length := by omega
      obtain ⟨l, hl⟩ : ∃ l, data[2 * pos + 1]? = some l := ⟨_, getElem?_eq_getElem (by omega)⟩
      obtain ⟨r, hr⟩ : ∃ r, data[2 * pos + 1 + 1]? = some r := ⟨_, getElem?_eq_getElem (by omega)⟩
      have hchild : ∀ c, 0 < c → (c - 1) / 2 = pos → c = 2 * pos + 1 ∨ c = 2 * pos + 1 + 1 := by
        intro c hc0 hcp
        omega
      -- one move of the hole to the child `c` with value `x`
      have hmove : ∀ c x, data[c]? = some x → (c = 2 * pos + 1 ∨ c = 2 * pos + 1 + 1) →
          l ≤ x → r ≤ x → ∃ data' hole, heapifyDownLoop c (2 * c + 1) (data.set pos x)
              = some (data', hole, 2 * hole + 1) ∧
            Holed data' hole ∧ hole < data'.length ∧ data'.length = data.length ∧
            data'.length ≤ 2 * hole + 2 ∧ (data'.set hole element).Perm (data.set pos element) := by
        intro c x hx hcc hlx hrx
        have hsink : Holed (data.set pos x) c := by
          refine h.sink (by omega) (by omega) hx ?_
          intro c' y hc0 hcp hy
          rcases hchild c' hc0 hcp with rfl | rfl
          · rw [hl, Option.some_inj] at hy
            exact hy ▸ hlx
          · rw [hr, Option.some_inj] at hy
            exact hy ▸ hrx
        obtain ⟨data', hole, hrun, hh, hlt, hl', hle, hperm⟩ :=
          ih (data.length - c) (by omega) c (data.set pos x) hsink
            (by simp only [length_set]; omega) (by simp)
        refine ⟨data', hole, hrun, hh, hlt, by simpa using hl', hle, hperm.trans ?_⟩
        exact set_set_perm hpos hx (by omega)
      split
      · rename_i l' r' hl' hr'
        obtain rfl : l' = l := Option.some_inj.mp (hl'.symm.trans hl)
        obtain rfl : r' = r := Option.some_inj.mp (hr'.symm.trans hr)
        split
        · exact hmove _ r' hr (Or.inr rfl) ‹_› le_rfl
        · exact hmove _ l' hl (Or.inl rfl) le_rfl (le_of_not_ge ‹_›)
      · rename_i hnone
        exact absurd hr (hnone l r hl)
    · refine ⟨data, pos, by rw [if_neg hc], h, hpos, rfl, by omega, Perm.refl _⟩

theorem heapifyDown_spec (h : Holed data 0) (he : data[0]? = some element) :
    ∃ data', heapifyDown 0 data = some data' ∧ MaxHeap data' ∧ data'.Perm data := by
  have hpos : 0 < data.length := (List.getElem_of_getElem? he).fst
  obtain ⟨data₁, hole, hrun, hh, hlt, -, hle, hperm⟩ := heapifyDownLoop_spec element 0 data h hpos
  rw [set_eq_self he] at hperm
  simp only [heapifyDown, he, hrun, Option.bind_eq_bind, Option.bind_some]
  by_cases hc : 2 * hole + 1 + 1 = data₁.length
  · -- one more move, to the only child
    obtain ⟨x, hx⟩ : ∃ x, data₁[2 * hole + 1]? = some x := ⟨_, getElem?_eq_getElem (by omega)⟩
    have hsink : Holed (data₁.set hole x) (2 * hole + 1) := by
      refine hh.sink (by omega) (by omega) hx ?_
      intro c y hc0 hcp hy
      have hcl : c < data₁.length := (List.getElem_of_getElem? hy).fst
      obtain rfl : c = 2 * hole + 1 := by omega
      rw [hx, Option.some_inj] at hy
      exact hy.ge
    obtain ⟨data', hup, hheap, hperm'⟩ := heapifyUp_spec
      ((hsink.set_hole element).rising_of_leaf (by simp only [length_set]; omega) element)
      (by simp only [length_set]; omega) (getElem?_set_self (by simp only [length_set]; omega))
    refine ⟨data', by simp [hc, hx, hup], hheap, hperm'.trans ?_⟩
    exact (set_set_perm hlt hx (by omega)).trans hperm
  · obtain ⟨data', hup, hheap, hperm'⟩ := heapifyUp_spec
      ((hh.set_hole element).rising_of_leaf (by simp only [length_set]; omega) element)
      (by simpa using hlt) (getElem?_set_self hlt)
    exact ⟨data', by simp [hc, hup], hheap, hperm'.trans hperm⟩

/-! ### One operation -/

theorem push_spec (val : α) (hh : MaxHeap h.data) :
    ∃ h', h.push val = some h' ∧ MaxHeap h'.data ∧ h'.contents = val ::ₘ h.contents := by
  obtain ⟨data, hrun, hheap, hperm⟩ := heapifyUp_spec (hh.rising_append val) (by simp) (by simp)
  refine ⟨⟨data⟩, by simp [push, hrun], hheap, ?_⟩
  have hcons : (h.data ++ [val]).Perm (val :: h.data) := perm_append_singleton val h.data
  exact Multiset.coe_eq_coe.mpr (hperm.trans hcons)

/-- `pop` aborts exactly on the empty heap, and otherwise takes the root. -/
theorem pop_spec (hh : MaxHeap h.data) (hne : h.data ≠ []) :
    ∃ m h', h.pop = some (m, h') ∧ h.peek = some m ∧ MaxHeap h'.data ∧
      h.contents = m ::ₘ h'.contents := by
  obtain ⟨init, item, hdata⟩ : ∃ init item, h.data = init ++ [item] :=
    ⟨_, _, (dropLast_append_getLast hne).symm⟩
  have hinit : MaxHeap init := by
    have := hh.take init.length
    rwa [hdata, take_left] at this
  have hcons : (init ++ [item]).Perm (item :: init) := perm_append_singleton item init
  rcases hr : init[0]? with _ | root
  · -- the last element was the only one
    obtain rfl : init = [] := by simpa using hr
    refine ⟨item, ⟨[]⟩, by simp [pop, hdata], by simp [peek, hdata], hinit, ?_⟩
    simp [contents, hdata]
  have h0 : 0 < init.length := (List.getElem_of_getElem? hr).fst
  obtain ⟨data, hrun, hheap, hperm⟩ := heapifyDown_spec (hinit.holed_root.set_hole item)
    (getElem?_set_self h0)
  refine ⟨root, ⟨data⟩, ?_, ?_, hheap, ?_⟩
  · simp [pop, hdata, hr, hrun]
  · rw [peek, hdata, getElem?_append_left h0, hr]
  -- swapping the last element with the root permutes the list
  have hswap : (item :: init).Perm (root :: init.set 0 item) := by
    obtain ⟨y, ys, rfl⟩ := exists_cons_of_length_pos h0
    obtain rfl : y = root := by simpa using hr
    exact Perm.swap _ _ _
  have := hcons.trans (hswap.trans (hperm.symm.cons root))
  rw [contents, hdata]
  exact Multiset.coe_eq_coe.mpr this

theorem pop_eq_none_iff (hh : MaxHeap h.data) : h.pop = none ↔ h.contents = 0 := by
  constructor
  · intro hn
    by_contra hc
    obtain ⟨m, h', hpop, -⟩ := pop_spec h hh (fun hd => hc (by simp [contents, hd]))
    rw [hn] at hpop
    exact absurd hpop (by simp)
  · intro hc
    have hd : h.data = [] := by simpa [contents] using hc
    simp [pop, hd]

variable {h : BinaryHeap α}

/-- The root of a heap is a greatest element. -/
theorem le_of_peek (hh : MaxHeap h.data) {m : α} (hm : h.peek = some m) :
    ∀ x ∈ h.contents, x ≤ m := by
  intro x hx
  obtain ⟨i, hi⟩ := mem_iff_getElem?.mp (Multiset.mem_coe.mp hx)
  exact hh.le_root hm i x hi

/-! ### Runs -/

/-- `Run h s`: the heap `h` is reached from the empty one by pushes and pops,
and `s` is the multiset of the elements pushed and not yet popped. -/
inductive Run : BinaryHeap α → Multiset α → Prop
  | empty : Run BinaryHeap.empty 0
  | push {h h' : BinaryHeap α} {s : Multiset α} (val : α) :
      Run h s → h.push val = some h' → Run h' (val ::ₘ s)
  | pop {h h' : BinaryHeap α} {s : Multiset α} {m : α} :
      Run h s → h.pop = some (m, h') → Run h' (s.erase m)

/-- Pop until the heap is empty; `fuel` bounds the number of pops. -/
def drain : ℕ → BinaryHeap α → Option (List α)
  | 0, h => if h.data.length = 0 then some [] else none
  | fuel + 1, h =>
    if h.data.length = 0 then some []
    else do
      let (m, h') ← h.pop
      let rest ← drain fuel h'
      some (m :: rest)

theorem Run.invariant {s : Multiset α} (r : Run h s) : MaxHeap h.data ∧ h.contents = s := by
  induction r with
  | empty => exact ⟨fun i x p _ hx => by simp [BinaryHeap.empty] at hx, rfl⟩
  | push val _ hp ih =>
    obtain ⟨h', hp', hheap, hc⟩ := push_spec _ val ih.1
    obtain rfl : _ = h' := Option.some_inj.mp (hp.symm.trans hp')
    exact ⟨hheap, by rw [hc, ih.2]⟩
  | @pop h _ _ m _ hp ih =>
    have hne : h.data ≠ [] := by
      intro hd
      simp [BinaryHeap.pop, hd] at hp
    obtain ⟨m', h', hp', -, hheap, hc⟩ := pop_spec h ih.1 hne
    obtain ⟨rfl, rfl⟩ : m = m' ∧ _ = h' := by simpa using hp.symm.trans hp'
    exact ⟨hheap, by rw [← ih.2, hc, Multiset.erase_cons_head]⟩

/-- Draining a heap lists its elements in non-increasing order. -/
theorem drain_spec (n : ℕ) (h : BinaryHeap α) (hh : MaxHeap h.data) (hn : h.data.length ≤ n) :
    ∃ out, drain n h = some out ∧ (out : Multiset α) = h.contents ∧ out.Pairwise (· ≥ ·) := by
  induction n generalizing h with
  | zero =>
    have hd : h.data = [] := eq_nil_of_length_eq_zero (by omega)
    exact ⟨[], by simp [drain, hd], by simp [contents, hd], Pairwise.nil⟩
  | succ n ih =>
    by_cases hd : h.data = []
    · exact ⟨[], by simp [drain, hd], by simp [contents, hd], Pairwise.nil⟩
    obtain ⟨m, h', hpop, hpeek, hheap, hc⟩ := pop_spec h hh hd
    have hlen : h.data.length = h'.data.length + 1 := by
      simpa [contents] using congrArg Multiset.card hc
    obtain ⟨out, hout, hperm, hsorted⟩ := ih h' hheap (by omega)
    refine ⟨m :: out, by simp [drain, hd, hpop, hout], ?_, ?_⟩
    · rw [hc, ← hperm]
      rfl
    · refine pairwise_cons.mpr ⟨fun x hx => ?_, hsorted⟩
      refine le_of_peek hh hpeek x ?_
      rw [hc, ← hperm]
      exact Multiset.mem_cons_of_mem (Multiset.mem_coe.mpr hx)

/-- **Every interleaving of pushes and pops behaves as a priority queue.**  The
storage is in heap order and holds exactly the elements pushed and not yet
popped; a push succeeds; `pop` aborts only on an empty heap and otherwise
returns what `peek` shows, a maximum of the elements held, and removes one
occurrence of it; draining yields the elements in non-increasing order. -/
theorem run_spec {h : BinaryHeap α} {s : Multiset α} (r : Run h s) :
    MaxHeap h.data ∧ h.contents = s ∧ (∀ val, ∃ h', h.push val = some h') ∧ (h.pop = none ↔ s = 0) ∧
      (∀ m h', h.pop = some (m, h') →
        h.peek = some m ∧ m ∈ s ∧ (∀ x ∈ s, x ≤ m) ∧ h'.contents = s.erase m) ∧
      ∃ out, drain h.data.length h = some out ∧ (out : Multiset α) = s ∧ out.Pairwise (· ≥ ·) := by
  obtain ⟨hheap, hc⟩ := r.invariant
  refine ⟨hheap, hc, fun val => ?_, hc ▸ pop_eq_none_iff h hheap, fun m h' hpop => ?_, ?_⟩
  · obtain ⟨h', hp, -⟩ := push_spec h val hheap
    exact ⟨h', hp⟩
  · have hne : h.data ≠ [] := by
      intro hd
      simp [BinaryHeap.pop, hd] at hpop
    obtain ⟨m', h'', hp', hpeek, -, hcons⟩ := pop_spec h hheap hne
    obtain ⟨rfl, rfl⟩ : m = m' ∧ h' = h'' := by simpa using hpop.symm.trans hp'
    refine ⟨hpeek, ?_, hc ▸ le_of_peek hheap hpeek, ?_⟩
    · rw [← hc, hcons]
      exact Multiset.mem_cons_self m _
    · rw [← hc, hcons, Multiset.erase_cons_head]
  · obtain ⟨out, hout, hperm, hsorted⟩ := drain_spec h.data.length h hheap le_rfl
    exact ⟨out, hout, hperm.trans hc, hsorted⟩

/-- Pushing `3` and then `5` onto the empty heap is a run, and the next pop
does not abort. -/
theorem run_spec_push_push :
    Run (⟨[5, 3]⟩ : BinaryHeap ℕ) (5 ::ₘ 3 ::ₘ 0) ∧ MaxHeap [5, 3] ∧
      (⟨[5, 3]⟩ : BinaryHeap ℕ).pop ≠ none := by
  have hrun : Run (⟨[5, 3]⟩ : BinaryHeap ℕ) (5 ::ₘ 3 ::ₘ 0) := by
    refine Run.push (h := ⟨[3]⟩) 5 (Run.push 3 Run.empty ?_) ?_
    · simp [push, BinaryHeap.empty, heapifyUp, heapifyUpLoop]
    · simp [push, heapifyUp, heapifyUpLoop]
  obtain ⟨hheap, -, -, hpop, -⟩ := run_spec hrun
  exact ⟨hrun, hheap, fun hn => absurd (hpop.mp hn) (by simp)⟩

end BinaryHeap
