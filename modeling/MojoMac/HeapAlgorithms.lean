/-
The heap algorithms of a standard library, by their contract.

* `IsHeap` — the priorities of a list are in max-heap order;
* `HeapAlgorithms` — `pushHeap`, `popHeap` and `makeHeap`: they permute the list, and they restore
  the order as the standard says;
* `HeapAlgorithms.bySorting` — an instance, so that the contract can be met and evaluated.
-/
import MojoMac.HeapOrder

open List

namespace HeapOrder

variable {E D : Type} [LinearOrder D] {priority : E → D}

/-- The priorities are in max-heap order. -/
def IsHeap (priority : E → D) (l : List E) : Prop := MaxHeap (l.map priority)

theorem IsHeap.take {l : List E} (h : IsHeap priority l) (n : ℕ) : IsHeap priority (l.take n) := by
  rw [IsHeap, map_take]
  exact MaxHeap.take h n

theorem IsHeap.le_head {l : List E} (h : IsHeap priority l) {e : E} (he : l.head? = some e) :
    ∀ e' ∈ l, priority e' ≤ priority e := by
  intro e' he'
  obtain ⟨i, hi⟩ := mem_iff_getElem?.mp he'
  refine MaxHeap.le_root h ?_ i _ (by rw [getElem?_map, hi]; rfl)
  rw [getElem?_map, ← head?_eq_getElem?, he]
  rfl

theorem isHeap_nil : IsHeap priority [] := by
  intro i x p _ hx
  cases hx

/-- The heap algorithms, on lists whose entries have priorities. -/
structure HeapAlgorithms (priority : E → D) where
  pushHeap : List E → List E
  popHeap : List E → List E
  makeHeap : List E → List E
  pushHeap_perm : ∀ l, (pushHeap l).Perm l
  popHeap_perm : ∀ l, (popHeap l).Perm l
  makeHeap_perm : ∀ l, (makeHeap l).Perm l
  /-- A last entry is taken into the heap before it. -/
  isHeap_pushHeap : ∀ l e, IsHeap priority l → IsHeap priority (pushHeap (l ++ [e]))
  /-- The front of a heap goes to the end, the rest is a heap. -/
  getLast?_popHeap : ∀ l, IsHeap priority l → (popHeap l).getLast? = l.head?
  isHeap_popHeap : ∀ l, IsHeap priority l → IsHeap priority (popHeap l).dropLast
  isHeap_makeHeap : ∀ l, IsHeap priority (makeHeap l)

/-- Entries from the highest priority to the lowest. -/
def sorted (priority : E → D) (l : List E) : List E :=
  l.insertionSort fun a b => priority b ≤ priority a

theorem sorted_perm (l : List E) : (sorted priority l).Perm l := perm_insertionSort ..

theorem isHeap_sorted (l : List E) : IsHeap priority (sorted priority l) := by
  have : Std.Total fun a b : E => priority b ≤ priority a := ⟨fun a b => le_total _ _⟩
  have : IsTrans E fun a b => priority b ≤ priority a := ⟨fun a b c hab hbc => hbc.trans hab⟩
  have hsorted : (sorted priority l).Pairwise fun a b => priority b ≤ priority a :=
    pairwise_insertionSort _ l
  intro i x p hi hx hp
  obtain ⟨a, ha, rfl⟩ := Option.map_eq_some_iff.mp (getElem?_map .. ▸ hx)
  obtain ⟨b, hb, rfl⟩ := Option.map_eq_some_iff.mp (getElem?_map .. ▸ hp)
  obtain ⟨hi', rfl⟩ := List.getElem_of_getElem? ha
  obtain ⟨hp', rfl⟩ := List.getElem_of_getElem? hb
  exact pairwise_iff_getElem.mp hsorted _ _ hp' hi' (by omega)

/-- Heap algorithms that sort. -/
def HeapAlgorithms.bySorting (priority : E → D) : HeapAlgorithms priority where
  pushHeap := sorted priority
  popHeap l := sorted priority l.tail ++ l.head?.toList
  makeHeap := sorted priority
  pushHeap_perm := sorted_perm
  popHeap_perm l := by
    cases l with
    | nil => exact .nil
    | cons e l => exact List.perm_append_comm.trans ((sorted_perm l).cons e)
  makeHeap_perm := sorted_perm
  isHeap_pushHeap l e _ := isHeap_sorted _
  getLast?_popHeap l _ := by
    cases l with
    | nil => rfl
    | cons e l => simp
  isHeap_popHeap l _ := by
    cases l with
    | nil => exact isHeap_nil
    | cons e l => simpa using isHeap_sorted l
  isHeap_makeHeap := isHeap_sorted

end HeapOrder
