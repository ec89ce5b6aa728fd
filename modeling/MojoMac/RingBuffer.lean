/-
Ring buffers.

A ring is a buffer of `c` slots read from a slot `head` onwards, wrapping around
after the last slot.  Slots are `Option α`: `none` is a slot that holds no value.
The view of a ring is a partial sequence `s : ℤ → Option α` indexed relative to
`head`, so that code which moves values between slots can be reasoned about with
plain integer positions and no wrap-around:

* `View.update`, `View.moves`, `View.swaps` — a write, a loop of moves or a
  loop of swaps in the ring is the same write or loop in the view, as long as
  the view stays within one turn of the ring;
* `moves_down`, `moves_up`, `swaps_apply` — what these loops do to a view;
* `Holds.append` … `Holds.reverse` — the list operations on a ring that holds
  a list.
-/
import Mathlib

open List

namespace RingBuffer

open Function (update update_self update_of_ne)

variable {α : Type*} {c head lo : ℤ} {data s : ℤ → Option α} (d : ℤ → Option α)

/-! ### Slots -/

/-- The slot of index `i` in a ring of `c` slots that starts at slot `head`. -/
def slot (c head i : ℤ) : ℤ :=
  (head + i) % c

theorem slot_slot (c head i j : ℤ) : slot c (slot c head i) j = slot c head (i + j) := by
  simp only [slot, Int.emod_add_emod, add_assoc]

theorem slot_zero (h0 : 0 ≤ head) (hlt : head < c) : slot c head 0 = head := by
  rw [slot, add_zero, Int.emod_eq_of_lt h0 hlt]

variable {i j : ℤ}

/-- Two different indices within one turn of the ring have different slots. -/
theorem slot_ne (hne : i ≠ j) (hi : i < j + c) (hj : j < i + c) :
    slot c head i ≠ slot c head j := by
  intro h
  have hdvd : c ∣ (head + i) - (head + j) :=
    Int.dvd_of_emod_eq_zero (Int.emod_eq_emod_iff_emod_sub_eq_zero.mp h)
  have hzero : (head + i) - (head + j) = 0 :=
    Int.eq_zero_of_abs_lt_dvd hdvd (abs_lt.mpr ⟨by omega, by omega⟩)
  omega

/-! ### Views -/

/-- The ring holds every value of the view `s`, each in the slot of its index. -/
def Shows (c head : ℤ) (data s : ℤ → Option α) : Prop :=
  ∀ i x, s i = some x → data (slot c head i) = some x

/-- The view `s` has values only at the `c` indices from `lo` on. -/
def Within (lo c : ℤ) (s : ℤ → Option α) : Prop :=
  ∀ i x, s i = some x → lo ≤ i ∧ i < lo + c

theorem Shows.mono {s' : ℤ → Option α} (h : Shows c head data s)
    (hle : ∀ i x, s' i = some x → s i = some x) : Shows c head data s' :=
  fun i x hx => h i x (hle i x hx)

theorem Shows.shift (h : Shows c head data s) (k : ℤ) :
    Shows c (slot c head k) data (fun i => s (i + k)) := by
  intro i x hx
  rw [slot_slot, add_comm k i]
  exact h _ x hx

/-- The ring shows a view that has values only within one turn from `lo` on. -/
structure View (lo c head : ℤ) (data s : ℤ → Option α) : Prop where
  shows : Shows c head data s
  within : Within lo c s

/-- Writing the slot of an index within the turn writes the view at that index.  A slot of
which the view says nothing may receive anything. -/
theorem View.update (h : View lo c head data s) (hi : lo ≤ i ∧ i < lo + c)
    {v w : Option α} (hv : ∀ x, v = some x → w = some x) :
    View lo c head (update data (slot c head i) w) (update s i v) := by
  refine ⟨fun j x hx => ?_, fun j x hx => ?_⟩
  · by_cases hji : j = i
    · subst hji
      rw [update_self] at hx ⊢
      exact hv x hx
    · rw [update_of_ne hji] at hx
      have hj := h.within j x hx
      rw [update_of_ne (slot_ne hji (by omega) (by omega))]
      exact h.shows j x hx
  · by_cases hji : j = i
    · exact hji ▸ hi
    · exact h.within j x (by rwa [update_of_ne hji] at hx)

/-! ### Moving values -/

/-- Move the value of slot `src` to slot `dst`, which leaves `src` without a value. -/
def move (src dst : ℤ) : ℤ → Option α :=
  update (update d dst (d src)) src none

/-- Exchange the values of two slots through a temporary. -/
def swap (src dst : ℤ) : ℤ → Option α :=
  update (move (update d dst none) src dst) src (d dst)

/-- The loop that moves from slot `src t` to slot `dst t` for `t = 0, …, n - 1`. -/
def moves (src dst : ℕ → ℤ) (n : ℕ) : ℤ → Option α :=
  (List.range n).foldl (fun d t => move d (src t) (dst t)) d

/-- The loop that exchanges slots `src t` and `dst t` for `t = 0, …, n - 1`. -/
def swaps (src dst : ℕ → ℤ) (n : ℕ) : ℤ → Option α :=
  (List.range n).foldl (fun d t => swap d (src t) (dst t)) d

theorem moves_succ (src dst : ℕ → ℤ) (n : ℕ) :
    moves d src dst (n + 1) = move (moves d src dst n) (src n) (dst n) := by
  simp [moves, range_succ]

theorem swaps_succ (src dst : ℕ → ℤ) (n : ℕ) :
    swaps d src dst (n + 1) = swap (swaps d src dst n) (src n) (dst n) := by
  simp [swaps, range_succ]

section loops

variable {src dst : ℤ}

theorem View.move (h : View lo c head data s) (hsrc : lo ≤ src ∧ src < lo + c)
    (hdst : lo ≤ dst ∧ dst < lo + c) :
    View lo c head (move data (slot c head src) (slot c head dst)) (move s src dst) :=
  (h.update hdst (h.shows src)).update hsrc fun _ hx => hx

theorem View.swap (h : View lo c head data s) (hsrc : lo ≤ src ∧ src < lo + c)
    (hdst : lo ≤ dst ∧ dst < lo + c) :
    View lo c head (swap data (slot c head src) (slot c head dst)) (swap s src dst) :=
  ((h.update hdst (v := none) (w := none) fun _ hx => hx).move hsrc hdst).update hsrc (h.shows dst)

/-- A loop whose steps do the same to the ring and to the view. -/
theorem View.foldl {f g : (ℤ → Option α) → ℕ → ℤ → Option α} {n : ℕ} (h : View lo c head data s)
    (hstep : ∀ t < n, ∀ {d s}, View lo c head d s → View lo c head (f d t) (g s t)) :
    View lo c head ((List.range n).foldl f data) ((List.range n).foldl g s) := by
  induction n with
  | zero => exact h
  | succ n ih =>
    simp only [range_succ, foldl_append, foldl_cons, foldl_nil]
    exact hstep n n.lt_succ_self (ih fun t ht => hstep t (ht.trans n.lt_succ_self))

theorem View.moves (h : View lo c head data s) (n : ℕ) (src dst : ℕ → ℤ)
    (hsrc : ∀ t < n, lo ≤ src t ∧ src t < lo + c)
    (hdst : ∀ t < n, lo ≤ dst t ∧ dst t < lo + c) :
    View lo c head (moves data (fun t => slot c head (src t)) (fun t => slot c head (dst t)) n)
      (moves s src dst n) :=
  h.foldl fun t ht _ _ hd => hd.move (hsrc t ht) (hdst t ht)

theorem View.swaps (h : View lo c head data s) (n : ℕ) (src dst : ℕ → ℤ)
    (hsrc : ∀ t < n, lo ≤ src t ∧ src t < lo + c)
    (hdst : ∀ t < n, lo ≤ dst t ∧ dst t < lo + c) :
    View lo c head (swaps data (fun t => slot c head (src t)) (fun t => slot c head (dst t)) n)
      (swaps s src dst n) :=
  h.foldl fun t ht _ _ hd => hd.swap (hsrc t ht) (hdst t ht)

end loops

/-- Moving the `n` values from index `a` on down by one, in ascending order. -/
theorem moves_down (s : ℤ → Option α) (a : ℤ) (n : ℕ) (hj : j ≠ a + n - 1) :
    moves s (fun t => a + t) (fun t => a + t - 1) n j =
      if a - 1 ≤ j ∧ j < a + n - 1 then s (j + 1) else s j := by
  induction n generalizing j with
  | zero =>
    rw [if_neg (by omega)]
    rfl
  | succ n ih =>
    have hsrc : moves s (fun t => a + t) (fun t => a + t - 1) n (a + n) = s (a + n) := by
      rw [ih (by omega), if_neg (by omega)]
    rw [moves_succ, move, update_of_ne (by omega)]
    by_cases hdst : j = a + n - 1
    · rw [hdst, update_self, hsrc, if_pos (by omega), sub_add_cancel]
    · rw [update_of_ne hdst, ih hdst]
      exact if_congr (by omega) rfl rfl

/-- Moving the `n` values below index `b` up by one, in descending order. -/
theorem moves_up (s : ℤ → Option α) (b : ℤ) (n : ℕ) (hj : j ≠ b - n) :
    moves s (fun t => b - t - 1) (fun t => b - t) n j =
      if b - n < j ∧ j ≤ b then s (j - 1) else s j := by
  induction n generalizing j with
  | zero =>
    rw [if_neg (by omega)]
    rfl
  | succ n ih =>
    have hsrc : moves s (fun t => b - t - 1) (fun t => b - t) n (b - n - 1) = s (b - n - 1) := by
      rw [ih (by omega), if_neg (by omega)]
    rw [moves_succ, move, update_of_ne (by omega)]
    by_cases hdst : j = b - n
    · rw [hdst, update_self, hsrc, if_pos (by omega)]
    · rw [update_of_ne hdst, ih hdst]
      exact if_congr (by omega) rfl rfl

theorem swap_apply (s : ℤ → Option α) {a b : ℤ} (hab : a ≠ b) (j : ℤ) :
    swap s a b j = if j = a then s b else if j = b then s a else s j := by
  by_cases ha : j = a
  · rw [swap, ha, update_self, if_pos rfl]
  · rw [swap, move, update_of_ne ha, update_of_ne ha, if_neg ha]
    by_cases hb : j = b
    · rw [hb, update_self, update_of_ne hab, if_pos rfl]
    · rw [update_of_ne hb, update_of_ne hb, if_neg hb]

/-- Exchanging the first `t` of `n` indices with the last `t` mirrors both ends. -/
theorem swaps_apply (s : ℤ → Option α) (n t : ℕ) (ht : 2 * t ≤ n) (j : ℤ) :
    swaps s (fun i => i) (fun i => n - 1 - i) t j =
      if 0 ≤ j ∧ j < n ∧ (j < t ∨ n - 1 - j < t) then s (n - 1 - j) else s j := by
  induction t generalizing j with
  | zero =>
    rw [if_neg (by omega)]
    rfl
  | succ t ih =>
    have ih := ih (by omega)
    rw [swaps_succ, swap_apply _ (by omega), ih, ih, ih]
    -- the two indices of the last exchange were still in place before it
    rw [if_neg (by omega : ¬ (0 ≤ ((n : ℤ) - 1 - t) ∧ _)), if_neg (by omega : ¬ (0 ≤ (t : ℤ) ∧ _))]
    by_cases hlow : j = t
    · rw [if_pos hlow, hlow, if_pos (by omega)]
    rw [if_neg hlow]
    by_cases hhigh : j = n - 1 - t
    · rw [if_pos hhigh, hhigh, if_pos (by omega), sub_sub_cancel]
    · rw [if_neg hhigh]
      exact if_congr (by omega) rfl rfl

/-- The loop that writes slot `dst t` of `new` with what slot `src t` of `old` holds, for
`t = 0, …, n - 1`. -/
def transfers (new old : ℤ → Option α) (src dst : ℕ → ℤ) (n : ℕ) : ℤ → Option α :=
  (List.range n).foldl (fun d t => update d (dst t) (old (src t))) new

theorem transfers_apply (new old : ℤ → Option α) (src : ℕ → ℤ) (a : ℤ) (n : ℕ) (j : ℤ) :
    transfers new old src (fun t => a + t) n j =
      if a ≤ j ∧ j < a + n then old (src (j - a).toNat) else new j := by
  induction n with
  | zero =>
    rw [if_neg (by omega)]
    rfl
  | succ n ih =>
    have hsucc : transfers new old src (fun t => a + t) (n + 1) =
        update (transfers new old src (fun t => a + t) n) (a + n) (old (src n)) := by
      simp [transfers, range_succ]
    rw [hsucc]
    by_cases hlast : j = a + n
    · rw [hlast, update_self, if_pos (by omega), add_sub_cancel_left, Int.toNat_natCast]
    · rw [update_of_ne hlast, ih]
      exact if_congr (by omega) rfl rfl

/-! ### Rings that hold a list -/

/-- The view of a list: its elements at the indices `0, 1, …`. -/
def ofList (l : List α) (i : ℤ) : Option α :=
  if 0 ≤ i then l[i.toNat]? else none

theorem ofList_of_nonneg (l : List α) (hi : 0 ≤ i) : ofList l i = l[i.toNat]? :=
  if_pos hi

theorem ofList_of_neg (l : List α) (hi : i < 0) : ofList l i = none :=
  if_neg (by omega)

theorem ofList_natCast (l : List α) (i : ℕ) : ofList l i = l[i]? := by
  rw [ofList_of_nonneg l (by omega), Int.toNat_natCast]

variable {l : List α}

theorem ofList_bounds {x : α} (h : ofList l i = some x) : 0 ≤ i ∧ i < l.length := by
  rw [ofList] at h
  split_ifs at h
  have := (List.getElem_of_getElem? h).1
  omega

variable {idx : ℕ}

theorem ofList_insertIdx (hidx : idx ≤ l.length) (x : α) (i : ℤ) :
    ofList (l.insertIdx idx x) i =
      if i < idx then ofList l i else if i = idx then some x else ofList l (i - 1) := by
  rcases lt_or_ge i 0 with hi | hi
  · rw [if_pos (by omega), ofList_of_neg _ hi, ofList_of_neg _ hi]
  lift i to ℕ using hi
  rw [ofList_natCast, ofList_natCast, getElem?_insertIdx]
  rcases lt_trichotomy i idx with hlt | rfl | hgt
  · rw [if_pos hlt, if_pos (by omega)]
  · simp [hidx]
  · rw [if_neg (by omega), if_neg (by omega), if_neg (by omega), if_neg (by omega),
      show (i : ℤ) - 1 = (i - 1 : ℕ) by omega, ofList_natCast]

theorem ofList_eraseIdx (l : List α) (idx : ℕ) (i : ℤ) :
    ofList (l.eraseIdx idx) i = if i < idx then ofList l i else ofList l (i + 1) := by
  rcases lt_or_ge i 0 with hi | hi
  · rw [if_pos (by omega), ofList_of_neg _ hi, ofList_of_neg _ hi]
  lift i to ℕ using hi
  rw [ofList_natCast, ofList_natCast, getElem?_eraseIdx, ← Nat.cast_succ, ofList_natCast]
  exact if_congr (by omega) rfl rfl

theorem ofList_append (l : List α) (x : α) :
    ofList (l ++ [x]) = update (ofList l) l.length (some x) := by
  funext i
  rcases lt_trichotomy i l.length with hi | rfl | hi
  · rw [update_of_ne hi.ne]
    by_cases h0 : 0 ≤ i
    · rw [ofList_of_nonneg _ h0, ofList_of_nonneg _ h0, getElem?_append_left (by omega)]
    · rw [ofList_of_neg _ (by omega), ofList_of_neg _ (by omega)]
  · rw [update_self, ofList_natCast, getElem?_concat_length]
  · rw [update_of_ne hi.ne', ofList_of_nonneg _ (by omega), ofList_of_nonneg _ (by omega),
      getElem?_eq_none (by simp; omega), getElem?_eq_none (by omega)]

theorem ofList_cons_succ (x : α) (l : List α) :
    (fun i => ofList (x :: l) (i + 1)) = update (ofList l) (-1) (some x) := by
  funext i
  rcases lt_trichotomy i (-1) with hi | rfl | hi
  · rw [update_of_ne hi.ne, ofList_of_neg _ (by omega), ofList_of_neg _ (by omega)]
  · simp [ofList]
  · have hsucc : (i + 1).toNat = i.toNat + 1 := by omega
    rw [update_of_ne hi.ne', ofList_of_nonneg _ (by omega), ofList_of_nonneg _ (by omega),
      hsucc, getElem?_cons_succ]

/-- The ring holds the list `l`, its first element in slot `head`. -/
def Holds (c head : ℤ) (data : ℤ → Option α) (l : List α) : Prop :=
  Shows c head data (ofList l)

section lists

variable {x : α}

theorem Holds.get (h : Holds c head data l) {i : ℕ} (hx : l[i]? = some x) :
    data (slot c head i) = some x :=
  h i x (by rwa [ofList_natCast])

theorem holds_nil : Holds c head data [] := by
  intro i x hx
  simp [ofList] at hx

theorem Holds.view (h : Holds c head data l) (hlo : lo ≤ 0) (hlen : l.length ≤ lo + c) :
    View lo c head data (ofList l) := by
  refine ⟨h, fun i x hx => ?_⟩
  have := ofList_bounds hx
  omega

theorem Holds.front (h : Holds c head data (x :: l)) : data (slot c head 0) = some x :=
  h 0 x rfl

theorem Holds.append (h : Holds c head data l) (hlen : l.length < c) (x : α) :
    Holds c head (update data (slot c head l.length) (some x)) (l ++ [x]) := by
  rw [Holds, ofList_append]
  exact ((h.view le_rfl (by omega)).update (by omega) fun _ hx => hx).shows

theorem Holds.appendleft (h : Holds c head data l) (hlen : l.length < c) (x : α) :
    Holds c (slot c head (-1)) (update data (slot c head (-1)) (some x)) (x :: l) := by
  have hwritten : Shows c head (update data (slot c head (-1)) (some x))
      (update (ofList l) (-1) (some x)) :=
    ((h.view (show (-1 : ℤ) ≤ 0 by omega) (by omega)).update (by omega) fun _ hx => hx).shows
  rw [← ofList_cons_succ] at hwritten
  have hshifted := hwritten.shift (-1)
  simp only [neg_add_cancel_right] at hshifted
  exact hshifted

theorem Holds.popleft (h : Holds c head data (x :: l)) (hlen : l.length < c) :
    data (slot c head 0) = some x ∧
      Holds c (slot c head 1) (update data (slot c head 0) none) l := by
  constructor
  · exact h.front
  have hcleared := ((h.view le_rfl (by simp; omega)).update (i := 0) (v := none) (w := none)
    (by omega) fun _ hx => hx).shows.shift 1
  refine hcleared.mono (fun i y hy => ?_)
  have hi := ofList_bounds hy
  have htail := congrFun (ofList_cons_succ x l) i
  rw [update_of_ne (by omega)] at htail ⊢
  rw [htail, hy]

theorem Holds.pop (h : Holds c head data (l ++ [x])) (hlen : l.length < c) :
    data (slot c head l.length) = some x ∧
      Holds c head (update data (slot c head l.length) none) l := by
  constructor
  · exact h.get getElem?_concat_length
  have hcleared := (h.view le_rfl (by simp; omega)).update (i := l.length) (v := none) (w := none)
    (by omega) fun _ hx => hx
  refine hcleared.shows.mono (fun i y hy => ?_)
  have hi := ofList_bounds hy
  rw [update_of_ne (by omega), ofList_append, update_of_ne (by omega), hy]

/-- The first element moves behind the last one. -/
theorem Holds.rotate_left (h : Holds c head data (x :: l)) (hlen : l.length + 1 < c) :
    Holds c (slot c head 1) (move data (slot c head 0) (slot c head (l.length + 1))) (l ++ [x]) := by
  have happend := h.append (by simpa using hlen) x
  have hpop := (Holds.popleft (l := l ++ [x]) happend (by simpa using hlen)).2
  rw [move, h.front]
  simpa using hpop

/-- The last element moves in front of the first one. -/
theorem Holds.rotate_right (h : Holds c head data (l ++ [x])) (hlen : l.length + 1 < c) :
    Holds c (slot c head (-1)) (move data (slot c head l.length) (slot c head (-1))) (x :: l) := by
  have happend := h.appendleft (by simpa using hlen) x
  have hpop := (Holds.pop (l := x :: l) happend (by simpa using hlen)).2
  rw [move, h.get getElem?_concat_length]
  simpa [slot_slot] using hpop

variable (h : Holds c head data l)

include h

/-- Insertion that makes room by moving the elements before the position down. -/
theorem Holds.insert_down (hlen : l.length < c) (hidx : idx ≤ l.length) (x : α) :
    Holds c (slot c head (-1))
      (update (moves data (fun t => slot c head (0 + t)) (fun t => slot c head (0 + t - 1)) idx)
        (slot c head (idx - 1)) (some x)) (l.insertIdx idx x) := by
  have hmoved := (h.view (show (-1 : ℤ) ≤ 0 by omega) (by omega)).moves idx (fun t => 0 + t)
    (fun t => 0 + t - 1) (by omega) (by omega)
  have hwritten := (hmoved.update (i := idx - 1) (v := some x) (by omega)
    fun _ hx => hx).shows.shift (-1)
  refine hwritten.mono (fun i y hy => ?_)
  have hi := ofList_bounds hy
  rw [ofList_insertIdx hidx] at hy
  by_cases hat : i = idx
  · rw [if_neg (by omega), if_pos hat] at hy
    rw [hat, ← sub_eq_add_neg, update_self, hy]
  · rw [update_of_ne (by omega), moves_down _ _ _ (by omega), ← hy, if_neg hat,
      neg_add_cancel_right]
    exact if_congr (by omega) rfl rfl

/-- Insertion that makes room by moving the elements from the position on up. -/
theorem Holds.insert_up (hlen : l.length < c) (hidx : idx ≤ l.length) (x : α) :
    Holds c head (update (moves data (fun t => slot c head (l.length - t - 1))
        (fun t => slot c head (l.length - t)) (l.length - idx)) (slot c head idx) (some x))
      (l.insertIdx idx x) := by
  have hmoved := (h.view le_rfl (by omega)).moves (l.length - idx) (fun t => l.length - t - 1)
    (fun t => l.length - t) (by omega) (by omega)
  have hwritten := hmoved.update (i := idx) (v := some x) (by omega) fun _ hx => hx
  refine hwritten.shows.mono (fun i y hy => ?_)
  have hi := ofList_bounds hy
  rw [length_insertIdx_of_le_length hidx] at hi
  rw [ofList_insertIdx hidx] at hy
  by_cases hat : i = idx
  · rw [if_neg (by omega), if_pos hat] at hy
    rw [hat, update_self, hy]
  rw [update_of_ne hat, moves_up _ _ _ (by omega), ← hy, if_neg hat]
  by_cases hbelow : i < idx
  · rw [if_pos hbelow, if_neg (by omega)]
  · rw [if_neg hbelow, if_pos (by omega)]

/-- The view of a list with the element at `idx` taken out of its slot. -/
theorem Holds.take (hlen : l.length ≤ c) (hidx : idx < l.length) :
    View 0 c head (update data (slot c head idx) none) (update (ofList l) idx none) :=
  (h.view le_rfl (by omega)).update (by omega) fun _ hx => hx

/-- Removal that closes the gap by moving the elements before the position up. -/
theorem Holds.remove_up (hlen : l.length ≤ c) (hidx : idx < l.length) :
    Holds c (slot c head 1)
      (moves (update data (slot c head idx) none) (fun t => slot c head (idx - t - 1))
        (fun t => slot c head (idx - t)) idx) (l.eraseIdx idx) := by
  have hshow := ((h.take hlen hidx).moves idx (fun t => idx - t - 1) (fun t => idx - t)
    (by omega) (by omega)).shows.shift 1
  refine hshow.mono (fun i y hy => ?_)
  have hi := ofList_bounds hy
  rw [ofList_eraseIdx] at hy
  rw [moves_up _ _ _ (by omega), ← hy]
  by_cases hbelow : i < idx
  · rw [if_pos (by omega), if_pos hbelow, add_sub_cancel_right, update_of_ne (by omega)]
  · rw [if_neg (by omega), if_neg hbelow, update_of_ne (by omega)]

/-- Removal that closes the gap by moving the elements after the position down. -/
theorem Holds.remove_down (hlen : l.length ≤ c) (hidx : idx < l.length) : Holds c head
      (moves (update data (slot c head idx) none) (fun t => slot c head (idx + 1 + t))
        (fun t => slot c head (idx + 1 + t - 1)) (l.length - (idx + 1))) (l.eraseIdx idx) := by
  have hshow := ((h.take hlen hidx).moves (l.length - (idx + 1)) (fun t => idx + 1 + t)
    (fun t => idx + 1 + t - 1) (by omega) (by omega)).shows
  refine hshow.mono (fun i y hy => ?_)
  have hi := ofList_bounds hy
  rw [length_eraseIdx_of_lt hidx] at hi
  rw [ofList_eraseIdx] at hy
  rw [moves_down _ _ _ (by omega), ← hy]
  by_cases hbelow : i < idx
  · rw [if_neg (by omega), if_pos hbelow, update_of_ne (by omega)]
  · rw [if_pos (by omega), if_neg hbelow, update_of_ne (by omega)]

theorem Holds.reverse (hlen : l.length ≤ c) : Holds c head
      (swaps data (fun t => slot c head t) (fun t => slot c head (l.length - 1 - t)) (l.length / 2))
      l.reverse := by
  have hshow := ((h.view le_rfl (by omega)).swaps (l.length / 2) (fun t => t)
    (fun t => l.length - 1 - t) (by omega) (by omega)).shows
  refine hshow.mono (fun i y hy => ?_)
  have hi := ofList_bounds hy
  rw [length_reverse] at hi
  have hs : ofList l (l.length - 1 - i) = some y := by
    rw [ofList_of_nonneg _ hi.1, getElem?_reverse (by omega)] at hy
    rw [ofList_of_nonneg _ (by omega), ← hy]
    congr 1
    omega
  rw [swaps_apply _ _ _ (by omega)]
  split
  · exact hs
  · -- only the middle element of an odd length stays where it is
    have hmiddle : i = l.length - 1 - i := by omega
    rw [hmiddle, hs]

end lists

end RingBuffer
