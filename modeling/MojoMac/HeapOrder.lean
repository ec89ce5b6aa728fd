/-
Max-heap order on a list read as a complete binary tree.

Position `i > 0` has the parent `(i - 1) / 2`.  A sift works on a list with a
*hole*: one position whose value is out of the list and will be written back
last.  `Holed l hole` says that everything off the hole is in order; `Rising`
adds that the value in hand may be written at the hole as far as its children
are concerned.  The moves of a sift keep these (`Holed.sink`, `Rising.rise`),
and filling the hole restores the order (`Rising.fill`).
-/
import Mathlib

open List

namespace HeapOrder

variable {α : Type*} [LinearOrder α]

/-- Every entry is at most its parent. -/
def MaxHeap (l : List α) : Prop :=
  ∀ i x p, 0 < i → l[i]? = some x → l[(i - 1) / 2]? = some p → x ≤ p

/-- The order of a list with a hole: edges off the hole are in order, and the
hole's children lie below the hole's parent. -/
structure Holed (l : List α) (hole : ℕ) : Prop where
  off : ∀ i x p, 0 < i → i ≠ hole → (i - 1) / 2 ≠ hole →
    l[i]? = some x → l[(i - 1) / 2]? = some p → x ≤ p
  grand : 0 < hole → ∀ c x p, 0 < c → (c - 1) / 2 = hole →
    l[c]? = some x → l[(hole - 1) / 2]? = some p → x ≤ p

/-- A hole that the value `e` may fill without disturbing the hole's
children. -/
structure Rising (l : List α) (hole : ℕ) (e : α) : Prop extends Holed l hole where
  below : ∀ c x, 0 < c → (c - 1) / 2 = hole → l[c]? = some x → x ≤ e

variable {l : List α}

theorem MaxHeap.le_root (h : MaxHeap l) {r : α} (hr : l[0]? = some r) :
    ∀ (i : ℕ) (x : α), l[i]? = some x → x ≤ r := by
  intro i
  induction i using Nat.strong_induction_on with
  | _ i ih =>
    intro x hx
    rcases Nat.eq_zero_or_pos i with rfl | hi
    · rw [hr, Option.some_inj] at hx
      exact hx.ge
    · have hlen : i < l.length := (List.getElem_of_getElem? hx).fst
      have hp : l[(i - 1) / 2]? = some l[(i - 1) / 2] := getElem?_eq_getElem (by omega)
      exact (h i x _ hi hx hp).trans (ih ((i - 1) / 2) (by omega) _ hp)

/-- An initial segment of a heap is a heap. -/
theorem MaxHeap.take (h : MaxHeap l) (n : ℕ) : MaxHeap (l.take n) := by
  intro i x p hi hx hp
  have hin : i < n := by
    by_contra hin
    rw [getElem?_take_eq_none (by omega)] at hx
    exact absurd hx (by simp)
  rw [getElem?_take_of_lt hin] at hx
  rw [getElem?_take_of_lt (by omega)] at hp
  exact h i x p hi hx hp

/-- Taking the root out of a heap leaves a hole. -/
theorem MaxHeap.holed_root (h : MaxHeap l) : Holed l 0 where
  off := fun i x p hi _ _ => h i x p hi
  grand := fun h0 => absurd h0 (lt_irrefl 0)

variable {hole : ℕ}

/-- Moving the larger child up leaves the hole at that child. -/
theorem Holed.sink {c : ℕ} {x : α} (h : Holed l hole) (hc : 0 < c) (hch : (c - 1) / 2 = hole)
    (hx : l[c]? = some x) (hmax : ∀ c' y, 0 < c' → (c' - 1) / 2 = hole → l[c']? = some y → y ≤ x) :
    Holed (l.set hole x) c where
  off := by
    intro i y p hi hic hpc hy hp
    have hcl : c < l.length := (List.getElem_of_getElem? hx).fst
    by_cases hih : i = hole
    · -- the value moved up meets the old parent of the hole
      subst hih
      rw [getElem?_set_self (by omega), Option.some_inj] at hy
      rw [getElem?_set_ne (by omega)] at hp
      subst hy
      exact h.grand hi c x p hc hch hx hp
    · rw [getElem?_set_ne (Ne.symm hih)] at hy
      by_cases hph : (i - 1) / 2 = hole
      · rw [hph, getElem?_set_self (by omega), Option.some_inj] at hp
        subst hp
        exact hmax i y hi hph hy
      · rw [getElem?_set_ne (Ne.symm hph)] at hp
        exact h.off i y p hi hih hph hy hp
  grand := by
    intro _ g y p hg hgc hy hp
    have hcl : c < l.length := (List.getElem_of_getElem? hx).fst
    rw [getElem?_set_ne (by omega)] at hy
    rw [hch, getElem?_set_self (by omega), Option.some_inj] at hp
    subst hp
    exact h.off g y x hg (by omega) (by omega) hy (by rw [hgc]; exact hx)

/-- A hole without children may be filled with anything, as far as the
children are concerned. -/
theorem Holed.rising_of_leaf (h : Holed l hole) (hleaf : l.length ≤ 2 * hole + 1)
    (e : α) : Rising l hole e where
  toHoled := h
  below := by
    intro c x hc hch hx
    have hcl : c < l.length := (List.getElem_of_getElem? hx).fst
    omega

/-- A new last position is a hole for whatever is appended there. -/
theorem MaxHeap.rising_append (h : MaxHeap l) (e : α) : Rising (l ++ [e]) l.length e := by
  have hle : ∀ {i x}, (l ++ [e])[i]? = some x → i ≤ l.length := by
    intro i x hx
    simpa [Nat.lt_succ_iff] using (List.getElem_of_getElem? hx).fst
  refine ⟨⟨fun i x p hi hne hpne hx hp => ?_, fun _ c x p hc hch hx _ => ?_⟩, fun c x hc hch hx => ?_⟩
  · have hil := hle hx
    rw [getElem?_append_left (by omega)] at hx
    rw [getElem?_append_left (by omega)] at hp
    exact h i x p hi hx hp
  -- the new position has no children
  · have := hle hx
    omega
  · have := hle hx
    omega

/-- Moving the parent down into the hole, when the value in hand is larger. -/
theorem Rising.rise {e p : α} (h : Rising l hole e) (hpos : 0 < hole)
    (hlen : hole < l.length) (hp : l[(hole - 1) / 2]? = some p) (hlt : p < e) :
    Rising (l.set hole p) ((hole - 1) / 2) e where
  off := by
    intro i x q hi hip hpp hx hq
    have hih : i ≠ hole := by
      rintro rfl
      exact hpp rfl
    rw [getElem?_set_ne (Ne.symm hih)] at hx
    by_cases hph : (i - 1) / 2 = hole
    · rw [hph, getElem?_set_self hlen, Option.some_inj] at hq
      subst hq
      exact h.grand hpos i x p hi hph hx hp
    · rw [getElem?_set_ne (Ne.symm hph)] at hq
      exact h.off i x q hi hih hph hx hq
  grand := by
    intro hpp c x q hc hcp hx hq
    rw [getElem?_set_ne (by omega)] at hq
    have hpq : p ≤ q := h.off ((hole - 1) / 2) p q hpp (by omega) (by omega) hp hq
    by_cases hch : c = hole
    · subst hch
      rw [getElem?_set_self hlen, Option.some_inj] at hx
      exact hx ▸ hpq
    · rw [getElem?_set_ne (Ne.symm hch)] at hx
      exact (h.off c x p hc hch (by omega) hx (by rw [hcp]; exact hp)).trans hpq
  below := by
    intro c x hc hcp hx
    by_cases hch : c = hole
    · subst hch
      rw [getElem?_set_self hlen, Option.some_inj] at hx
      exact hx ▸ hlt.le
    · rw [getElem?_set_ne (Ne.symm hch)] at hx
      exact (h.off c x p hc hch (by omega) hx (by rw [hcp]; exact hp)).trans hlt.le

/-- Filling the hole once its parent is at least the value in hand. -/
theorem Rising.fill {e : α} (h : Rising l hole e) (hlen : hole < l.length)
    (hstop : 0 < hole → ∀ p, l[(hole - 1) / 2]? = some p → e ≤ p) : MaxHeap (l.set hole e) := by
  intro i x p hi hx hp
  by_cases hih : i = hole
  · subst hih
    rw [getElem?_set_self hlen, Option.some_inj] at hx
    rw [getElem?_set_ne (by omega)] at hp
    exact hx ▸ hstop hi p hp
  · rw [getElem?_set_ne (Ne.symm hih)] at hx
    by_cases hph : (i - 1) / 2 = hole
    · rw [hph, getElem?_set_self hlen, Option.some_inj] at hp
      exact hp ▸ h.below i x hi hph hx
    · rw [getElem?_set_ne (Ne.symm hph)] at hp
      exact h.off i x p hi hih hph hx hp

theorem set_eq_self {β : Type*} {l : List β} {i : ℕ} {x : β} (h : l[i]? = some x) :
    l.set i x = l := by
  obtain ⟨hi, rfl⟩ := List.getElem_of_getElem? h
  exact set_getElem_self hi

/-- Writing at the hole does not disturb the order around it. -/
theorem Holed.set_hole (h : Holed l hole) (e : α) : Holed (l.set hole e) hole where
  off := by
    intro i y p hi hne hpne hy hp
    rw [getElem?_set_ne (Ne.symm hne)] at hy
    rw [getElem?_set_ne (Ne.symm hpne)] at hp
    exact h.off i y p hi hne hpne hy hp
  grand := by
    intro h0 c y p hc0 hcp hy hp
    rw [getElem?_set_ne (by omega)] at hy
    rw [getElem?_set_ne (by omega)] at hp
    exact h.grand h0 c y p hc0 hcp hy hp

/-- Moving the entry at `j` to the hole `i` and filling `j` instead permutes
the list that fills the hole. -/
theorem set_set_perm {β : Type*} {l : List β} {i j : ℕ} {x y : β} (hi : i < l.length)
    (hj : l[j]? = some y) (hij : i ≠ j) : ((l.set i y).set j x).Perm (l.set i x) := by
  obtain ⟨hjl, rfl⟩ := List.getElem_of_getElem? hj
  have h := @List.set_set_perm _ (l.set i x) i j (by simpa) (by simpa)
  simpa [getElem_set_ne hij] using h

end HeapOrder
