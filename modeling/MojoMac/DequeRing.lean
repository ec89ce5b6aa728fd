/-
The ring behind a deque.

`Deque.Ring q l` says that the buffer of `q` holds the list `l` between `head` and
`tail`; it allows a completely full buffer, which the source passes through between
adding an element and reallocating.  One lemma per elementary step of the source says
which list the ring holds afterwards.

* `Deque.Ring.len` — the masked difference is the length, unless the buffer is full;
* `Deque.Ring.realloc` — reallocation keeps the list, growing exactly when full;
* `Deque.Ring.growIfFull`, `Deque.Ring.shrinkIfSparse` — there is room again afterwards.
-/
import MojoMac.Deque

open Function (update)
open MachineInt List
open RingBuffer

namespace Deque

variable {α : Type*} {q : Deque α} {l : List α} {x : α}

/-- A capacity the mask arithmetic is right for: a power of two up to `2 ^ 62`. -/
def IsCapacity (c : ℤ) : Prop :=
  ∃ k ≤ 62, c = 2 ^ k

variable {c : ℤ}

theorem IsCapacity.pos (h : IsCapacity c) : 0 < c := by
  obtain ⟨k, _, rfl⟩ := h
  positivity

theorem IsCapacity.le (h : IsCapacity c) : c ≤ 2 ^ 62 := by
  obtain ⟨k, hk, rfl⟩ := h
  exact pow_le_pow_right₀ (by norm_num) hk

theorem IsCapacity.land (h : IsCapacity c) (i : ℤ) : land i (c - 1) = i % c := by
  obtain ⟨k, hk, rfl⟩ := h
  exact land_mask i hk

theorem IsCapacity.double (h : IsCapacity c) (hlt : c < 2 ^ 62) :
    IsCapacity (wrap (c * 2)) ∧ wrap (c * 2) = c * 2 := by
  have hwrap : wrap (c * 2) = c * 2 := wrap_of_mem (by have := h.pos; omega) (by omega)
  obtain ⟨k, hk, rfl⟩ := h
  have hk' : k < 62 := (pow_lt_pow_iff_right₀ (by norm_num : (1 : ℤ) < 2)).mp hlt
  exact ⟨⟨k + 1, hk', by rw [hwrap, pow_succ]⟩, hwrap⟩

theorem IsCapacity.half (h : IsCapacity c) (hone : 1 < c) : IsCapacity (c / 2) ∧ c = c / 2 * 2 := by
  obtain ⟨k, hk, rfl⟩ := h
  cases k with
  | zero => simp at hone
  | succ k =>
    have hhalf : (2 : ℤ) ^ (k + 1) / 2 = 2 ^ k := by rw [pow_succ, Int.mul_ediv_cancel _ (by norm_num)]
    exact ⟨⟨k, by omega, hhalf⟩, by rw [hhalf, pow_succ]⟩

variable {val : ℤ}

theorem isCapacity_nextPowerOfTwo (hval : val ≤ 2 ^ 62) :
    IsCapacity (nextPowerOfTwo val) ∧ val ≤ nextPowerOfTwo val := by
  obtain ⟨k, hk, heq, hle⟩ := nextPowerOfTwo_spec hval
  exact ⟨⟨k, hk, heq⟩, heq ▸ hle⟩

/-- The doubling that keeps a rounded capacity above what is stored in it. -/
theorem isCapacity_above (hval : val < 2 ^ 62) :
    IsCapacity (if nextPowerOfTwo val = val then wrap (nextPowerOfTwo val * 2)
        else nextPowerOfTwo val) ∧
      val < if nextPowerOfTwo val = val then wrap (nextPowerOfTwo val * 2)
        else nextPowerOfTwo val := by
  obtain ⟨hcap, hle⟩ := isCapacity_nextPowerOfTwo hval.le
  by_cases heq : nextPowerOfTwo val = val
  · obtain ⟨hdouble, hwrap⟩ := hcap.double (by omega)
    rw [if_pos heq]
    exact ⟨hdouble, by rw [hwrap]; have := hcap.pos; omega⟩
  · rw [if_neg heq]
    exact ⟨hcap, by omega⟩

/-- The buffer of `q` holds the list `l` from `head` up to `tail`. -/
structure Ring (q : Deque α) (l : List α) : Prop where
  capacity : IsCapacity q.capacity
  head_nonneg : 0 ≤ q.head
  head_lt : q.head < q.capacity
  tail_eq : q.tail = slot q.capacity q.head l.length
  length_le : l.length ≤ q.capacity
  holds : Holds q.capacity q.head q.data l

/-- A slot within the first turn, with the wrap-around resolved. -/
theorem slot_eq_ite {head i : ℤ} (h0 : 0 ≤ head + i) (hlt : head + i < 2 * c) :
    slot c head i = if head + i < c then head + i else head + i - c := by
  rw [slot]
  split
  · exact Int.emod_eq_of_lt h0 ‹_›
  · rw [← Int.sub_emod_right, Int.emod_eq_of_lt (by omega) (by omega)]

variable {q' : Deque α} {newCapacity : ℤ} {idx : ℕ}

namespace Ring

/-- A ring that starts at slot 0 and has a free slot. -/
theorem of_head_zero (hcap : IsCapacity q.capacity) (hroom : l.length < q.capacity)
    (hhead : q.head = 0) (htail : q.tail = l.length) (hholds : Holds q.capacity 0 q.data l) :
    Ring q l := by
  refine ⟨hcap, hhead.ge, hhead ▸ hcap.pos, ?_, hroom.le, hhead ▸ hholds⟩
  rw [htail, hhead, slot, zero_add, Int.emod_eq_of_lt (by omega) hroom]

section

variable (h : Ring q l)

include h

theorem physicalIndex (i : ℤ) : q.physicalIndex i = i % q.capacity :=
  h.capacity.land i

theorem physicalIndex_mem (i : ℤ) : 0 ≤ q.physicalIndex i ∧ q.physicalIndex i < q.capacity := by
  rw [h.physicalIndex]
  exact ⟨Int.emod_nonneg _ h.capacity.pos.ne', Int.emod_lt_of_pos _ h.capacity.pos⟩

theorem physicalIndex_head (i : ℤ) : q.physicalIndex (q.head + i) = slot q.capacity q.head i :=
  h.physicalIndex _

theorem physicalIndex_tail (i : ℤ) :
    q.physicalIndex (q.tail + i) = slot q.capacity q.head (l.length + i) := by
  rw [h.tail_eq, h.physicalIndex, ← slot_slot]
  rfl

theorem physicalIndex_slot (i j : ℤ) :
    q.physicalIndex (slot q.capacity q.head i + j) = slot q.capacity q.head (i + j) := by
  rw [h.physicalIndex, ← slot_slot]
  rfl

theorem head_eq : slot q.capacity q.head 0 = q.head :=
  slot_zero h.head_nonneg h.head_lt

theorem tail_eq_ite : q.tail = if q.head + l.length < q.capacity then q.head + l.length
      else q.head + l.length - q.capacity := by
  have := h.head_nonneg
  have := h.head_lt
  have := h.length_le
  rw [h.tail_eq, slot_eq_ite (by omega) (by omega)]

/-- `head` and `tail` meet when the ring is empty and when it is full. -/
theorem head_eq_tail_iff : q.head = q.tail ↔ l.length = 0 ∨ l.length = q.capacity := by
  have := h.head_nonneg
  have := h.head_lt
  have := h.length_le
  have := h.tail_eq_ite
  split at this <;> omega

theorem len (hlt : l.length < q.capacity) : q.len = l.length := by
  have hmod : (q.tail - q.head) % q.capacity = l.length % q.capacity := by
    rw [h.tail_eq, slot, Int.emod_sub_emod, add_sub_cancel_left]
  rw [Deque.len, h.capacity.land, hmod, Int.emod_eq_of_lt (by omega) hlt]

end

/-! ### The ends -/

section

variable (h : Ring q l)

include h

theorem tail_slot : q.tail = slot q.capacity q.head (l.length + 0) := by
  rw [add_zero, h.tail_eq]

/-- A step within the buffer that moves `head` by `d` slots and `tail` by `e`. -/
theorem shifted {l' : List α} (d e : ℤ) (hcapacity : q'.capacity = q.capacity)
    (hhead : q'.head = slot q.capacity q.head d)
    (htail : q'.tail = slot q.capacity q.head (l.length + e))
    (hlength : (l'.length : ℤ) = l.length + e - d) (hle : l'.length ≤ q.capacity)
    (hholds : Holds q.capacity q'.head q'.data l') : Ring q' l' := by
  obtain ⟨hnonneg, hlt⟩ := h.physicalIndex_mem (q.head + d)
  rw [h.physicalIndex_head, ← hhead] at hnonneg hlt
  refine ⟨hcapacity ▸ h.capacity, hnonneg, hcapacity ▸ hlt, ?_, hcapacity ▸ hle, hcapacity ▸ hholds⟩
  rw [hcapacity, hhead, slot_slot, htail, hlength, add_sub_cancel]

theorem writeTail (hlt : l.length < q.capacity) (x : α) : Ring (q.writeTail x) (l ++ [x]) := by
  have hheld := h.holds.append hlt x
  rw [← h.tail_eq] at hheld
  exact h.shifted 0 1 rfl h.head_eq.symm (h.physicalIndex_tail 1) (by simp) (by simp; omega) hheld

theorem writeHead (hlt : l.length < q.capacity) (x : α) : Ring (q.writeHead x) (x :: l) := by
  have hheld := h.holds.appendleft hlt x
  rw [← h.physicalIndex_head] at hheld
  exact h.shifted (-1) 0 rfl (h.physicalIndex_head (-1)) h.tail_slot (by simp) (by simp; omega) hheld

end

theorem dropHead (h : Ring q (x :: l)) : Ring q.dropHead l := by
  have hlen := h.length_le
  rw [length_cons] at hlen
  have hheld := (h.holds.popleft (by omega)).2
  rw [h.head_eq, ← h.physicalIndex_head] at hheld
  exact h.shifted 1 0 rfl (h.physicalIndex_head 1) h.tail_slot (by simp) (by omega) hheld

theorem physicalIndex_last (h : Ring q (l ++ [x])) :
    q.physicalIndex (q.tail - 1) = slot q.capacity q.head l.length := by
  rw [sub_eq_add_neg, h.physicalIndex_tail, length_append, length_singleton,
    Nat.cast_add, Nat.cast_one, add_neg_cancel_right]

theorem dropTail (h : Ring q (l ++ [x])) : Ring q.dropTail l := by
  have hlen := h.length_le
  rw [length_append, length_singleton] at hlen
  have hheld := (h.holds.pop (by omega)).2
  rw [← h.physicalIndex_last] at hheld
  exact h.shifted 0 (-1) rfl h.head_eq.symm (h.physicalIndex_tail (-1)) (by simp) (by omega) hheld

/-! ### Reallocation -/

/-- The buffer `_realloc` fills: the part up to the end of the old buffer, then the part that
had wrapped around to its start. -/
theorem transfers_wrapped (data : ℤ → Option α) {head headLen tailLen j : ℤ} (hhead : 0 ≤ headLen)
    (hj : 0 ≤ j) (hlt : j < headLen + tailLen) :
    transfers (transfers (fun _ => none) data (fun i => head + i) (fun i => i) headLen.toNat)
        data (fun i => i) (fun i => headLen + i) tailLen.toNat j =
      if j < headLen then data (head + j) else data (j - headLen) := by
  have hfirst := transfers_apply (fun _ => none) data (fun i => head + i) 0 headLen.toNat j
  simp only [zero_add, sub_zero] at hfirst
  rw [transfers_apply, hfirst]
  by_cases hin : j < headLen
  · rw [if_neg (by omega), if_pos (by omega), if_pos hin, Int.toNat_of_nonneg hj]
  · rw [if_pos (by omega), if_neg hin, Int.toNat_of_nonneg (by omega)]

section

variable (h : Ring q l)

include h

/-- `_realloc` keeps the list if it is told to grow exactly when the buffer is full. -/
theorem realloc (hcap : IsCapacity newCapacity) (hroom : l.length < newCapacity)
    (hfull : q.capacity < newCapacity ↔ l.length = q.capacity) :
    Ring (q.realloc newCapacity) l := by
  have hhead := h.head_nonneg
  have hhead' := h.head_lt
  have hle := h.length_le
  have htail := h.tail_eq_ite
  have hlen : (if q.head = q.tail ∧ q.capacity < newCapacity then q.capacity else q.len) =
      l.length := by
    by_cases hgrow : q.capacity < newCapacity
    · rw [if_pos ⟨h.head_eq_tail_iff.mpr (.inr (hfull.mp hgrow)), hgrow⟩, hfull.mp hgrow]
    · rw [if_neg (fun hboth => hgrow hboth.2), h.len (lt_of_le_of_ne hle (mt hfull.mpr hgrow))]
  refine of_head_zero hcap hroom rfl hlen (fun i y hy => ?_)
  have hget := h.holds i y hy
  obtain ⟨hi, hlt⟩ := ofList_bounds hy
  simp only [Deque.realloc, hlen]
  rw [slot, zero_add, Int.emod_eq_of_lt hi (by omega)]
  rw [slot_eq_ite (by omega) (by omega)] at hget
  rw [transfers_wrapped _ (by split <;> omega) hi (by split at htail <;> split <;> omega)]
  split at hget
  · rw [if_pos (by split <;> omega), hget]
  · rw [if_neg (by split <;> omega), ← hget]
    congr 1
    split <;> omega

/-- After an element was added there is a free slot again. -/
theorem growIfFull (hne : l ≠ []) (hfit : (l.length : ℤ) < 2 ^ 62) :
    Ring q.growIfFull l ∧ l.length < q.growIfFull.capacity := by
  have hpos : 0 < l.length := length_pos_iff.mpr hne
  by_cases hmeet : q.head = q.tail
  · have hfull : l.length = q.capacity := (h.head_eq_tail_iff.mp hmeet).resolve_left (by omega)
    obtain ⟨hcap, hdouble⟩ := h.capacity.double (by omega)
    rw [Deque.growIfFull, if_pos hmeet]
    have hroom : l.length < wrap (q.capacity * 2) := by omega
    exact ⟨h.realloc hcap hroom (iff_of_true (by omega) hfull), hroom⟩
  · have hlt : l.length ≠ q.capacity := fun hfull => hmeet (h.head_eq_tail_iff.mpr (.inr hfull))
    rw [Deque.growIfFull, if_neg hmeet]
    exact ⟨h, lt_of_le_of_ne h.length_le hlt⟩

theorem shrinkIfSparse (hlt : l.length < q.capacity) (hmin : 0 < q.minCapacity) :
    Ring q.shrinkIfSparse l ∧ l.length < q.shrinkIfSparse.capacity := by
  rw [Deque.shrinkIfSparse, h.len hlt]
  split
  case isTrue hsparse =>
    obtain ⟨_, habove, hquarter⟩ := hsparse
    obtain ⟨hcap, hhalf⟩ := h.capacity.half (by omega)
    have hroom : l.length < q.capacity / 2 := by omega
    exact ⟨h.realloc hcap hroom (iff_of_false (by omega) (by omega)), hroom⟩
  case isFalse => exact ⟨h, hlt⟩

/-- The elements in order from slot 0 of a new buffer, as `_prepare_for_new_elements` and the
copy constructor lay them out. -/
theorem holds_transfers (hroom : l.length < newCapacity) : Holds newCapacity 0
      (transfers (fun _ => none) q.data (fun i => q.physicalIndex (q.head + i)) (fun i => i)
        l.length) l := by
  intro i y hy
  have hget := h.holds i y hy
  obtain ⟨hi, hlt⟩ := ofList_bounds hy
  have hcopy := transfers_apply (fun _ => none) q.data (fun i => q.physicalIndex (q.head + i)) 0
    l.length i
  simp only [zero_add, sub_zero] at hcopy
  rw [slot, zero_add, Int.emod_eq_of_lt hi (by omega), hcopy, if_pos (by omega),
    Int.toNat_of_nonneg hi, h.physicalIndex_head, hget]

theorem of_transfers (hcap : IsCapacity q'.capacity)
    (hroom : l.length < q'.capacity) (hhead : q'.head = 0) (htail : q'.tail = l.length)
    (hdata : q'.data = transfers (fun _ => none) q.data
      (fun i => q.physicalIndex (q.head + i)) (fun i => i) l.length) : Ring q' l := by
  refine of_head_zero hcap hroom hhead htail ?_
  rw [hdata]
  exact h.holds_transfers hroom

theorem prepareForNewElements {nTotal : ℤ} (hle : l.length ≤ nTotal) (hfit : nTotal < 2 ^ 62) :
    Ring (q.prepareForNewElements nTotal l.length) l ∧
      nTotal < (q.prepareForNewElements nTotal l.length).capacity := by
  obtain ⟨hcap, habove⟩ := isCapacity_above hfit
  exact ⟨h.of_transfers hcap (lt_of_le_of_lt hle habove) rfl rfl rfl, habove⟩

theorem copy (hlt : l.length < q.capacity) : Ring q.copy l := by
  refine h.of_transfers h.capacity hlt rfl (h.len hlt) ?_
  show transfers _ _ _ _ q.len.toNat = _
  rw [h.len hlt, Int.toNat_natCast]

/-! ### Loops over the ends -/

theorem iterate_dropHead {n : ℕ} (hn : n ≤ l.length) : Ring (Deque.dropHead^[n] q) (l.drop n) := by
  induction n generalizing q l with
  | zero => exact h
  | succ n ih =>
    cases l with
    | nil => simp at hn
    | cons y l =>
      rw [Function.iterate_succ_apply, drop_succ_cons]
      exact ih h.dropHead (by simpa using hn)

theorem iterate_dropTail {n : ℕ} (hn : n ≤ l.length) :
    Ring (Deque.dropTail^[n] q) (l.take (l.length - n)) := by
  induction n generalizing q l with
  | zero => simpa using h
  | succ n ih =>
    rcases eq_nil_or_concat l with rfl | ⟨l, y, rfl⟩
    · simp at hn
    · simp only [concat_eq_append, length_append, length_singleton] at h hn ⊢
      rw [Function.iterate_succ_apply, Nat.add_sub_add_right, take_append_of_le_length (by omega)]
      exact ih h.dropTail (by omega)

theorem foldl_writeTail (values : List α) (hroom : l.length + values.length < q.capacity) :
    Ring (values.foldl Deque.writeTail q) (l ++ values) := by
  induction values generalizing q l with
  | nil => simpa using h
  | cons y values ih =>
    rw [length_cons] at hroom
    have hstep := ih (h.writeTail (by omega) y) (by
      show ((l ++ [y]).length : ℤ) + values.length < q.capacity
      rw [length_append, length_singleton]
      omega)
    rwa [append_assoc, singleton_append] at hstep

theorem foldl_writeHead (values : List α) (hroom : l.length + values.length < q.capacity) :
    Ring (values.foldl Deque.writeHead q) (values.reverse ++ l) := by
  induction values generalizing q l with
  | nil => simpa using h
  | cons y values ih =>
    rw [length_cons] at hroom
    have hstep := ih (h.writeHead (by omega) y) (by
      show ((y :: l).length : ℤ) + values.length < q.capacity
      rw [length_cons]
      omega)
    rwa [reverse_cons, append_assoc, singleton_append]

end

/-! ### The middle -/

section

variable (h : Ring q l) (hlt : l.length < q.capacity)

include h hlt

/-- Insertion writes into the gap on the shorter side. -/
theorem insert (hidx : idx ≤ l.length) (x : α) :
    Ring { q.openGap idx with
        data := update (q.openGap idx).data
          ((q.openGap idx).physicalIndex ((q.openGap idx).head + idx)) (some x) }
      (l.insertIdx idx x) := by
  have hlength : (l.insertIdx idx x).length = l.length + 1 := length_insertIdx_of_le_length hidx x
  by_cases hleft : (idx : ℤ) ≤ q.len / 2
  · have hmoved := h.holds.insert_down hlt hidx x
    rw [openGap, if_pos hleft]
    refine h.shifted (-1) 0 rfl (h.physicalIndex_head (-1)) h.tail_slot (by omega) (by omega) ?_
    show Holds q.capacity (q.physicalIndex (q.head - 1)) (update _
      (q.physicalIndex (q.physicalIndex (q.head - 1) + idx)) (some x)) (l.insertIdx idx x)
    have hwrite : (-1 : ℤ) + idx = idx + -1 := add_comm _ _
    simp only [zero_add, h.physicalIndex_head, sub_eq_add_neg, h.physicalIndex_slot, hwrite,
      Int.toNat_natCast] at hmoved ⊢
    exact hmoved
  · have hmoved := h.holds.insert_up hlt hidx x
    have hcount : (q.len - idx).toNat = l.length - idx := by
      rw [h.len hlt]
      omega
    rw [openGap, if_neg hleft]
    refine h.shifted 0 1 rfl h.head_eq.symm (h.physicalIndex_tail 1) (by omega) (by omega) ?_
    show Holds q.capacity q.head (update _ (q.physicalIndex (q.head + idx)) (some x))
      (l.insertIdx idx x)
    simp only [h.physicalIndex_head, sub_eq_add_neg, h.physicalIndex_tail, h.physicalIndex_slot]
      at hmoved ⊢
    rw [← sub_eq_add_neg, hcount]
    exact hmoved

/-- Removal closes the gap from the shorter side. -/
theorem closeGap (hidx : idx < l.length) :
    Ring (q.closeGap idx) (l.eraseIdx idx) := by
  have hlength : (l.eraseIdx idx).length = l.length - 1 := length_eraseIdx_of_lt hidx
  by_cases hleft : (idx : ℤ) < q.len / 2
  · have hmoved := h.holds.remove_up hlt.le hidx
    rw [Deque.closeGap, if_pos hleft]
    refine h.shifted 1 0 rfl (h.physicalIndex_head 1) h.tail_slot (by omega) (by omega) ?_
    show Holds q.capacity (q.physicalIndex (q.head + 1)) _ (l.eraseIdx idx)
    have hsrc : ∀ t : ℕ, (idx : ℤ) - 1 - t = idx - t - 1 := fun t => by ring
    simp only [hsrc, h.physicalIndex_head, h.physicalIndex_slot, sub_add_cancel]
    exact hmoved
  · have hmoved := h.holds.remove_down hlt.le hidx
    have hcount : (q.len - (idx + 1)).toNat = l.length - (idx + 1) := by
      rw [h.len hlt]
      omega
    rw [Deque.closeGap, if_neg hleft]
    refine h.shifted 0 (-1) rfl h.head_eq.symm (h.physicalIndex_tail (-1)) (by omega) (by omega) ?_
    show Holds q.capacity q.head _ (l.eraseIdx idx)
    simp only [h.physicalIndex_head, sub_eq_add_neg, h.physicalIndex_slot] at hmoved ⊢
    rw [← sub_eq_add_neg, hcount]
    exact hmoved

theorem reverse : Ring q.reverse l.reverse := by
  have hswapped := h.holds.reverse h.length_le
  have hcount : (q.len / 2).toNat = l.length / 2 := by
    rw [h.len hlt]
    omega
  have hdst : ∀ i : ℕ, q.head + q.len - 1 - i = q.head + (l.length - 1 - i) := by
    intro i
    rw [h.len hlt]
    ring
  refine h.shifted 0 0 rfl h.head_eq.symm h.tail_slot (by simp) (by simpa using h.length_le) ?_
  show Holds q.capacity q.head (swaps q.data _ (fun i => q.physicalIndex (q.head + q.len - 1 - i))
    (q.len / 2).toNat) l.reverse
  simp only [hcount, hdst, h.physicalIndex_head]
  exact hswapped

/-! ### Rotation -/

/-- Rotating an empty deque moves from an uninitialised slot, but it stays empty. -/
theorem rotateLeft : Ring q.rotateLeft (l.rotate 1) := by
  cases l with
  | nil =>
    exact h.shifted 1 1 rfl (h.physicalIndex_head 1) (h.physicalIndex_tail 1) (by simp) h.length_le
      holds_nil
  | cons x l =>
    rw [length_cons] at hlt
    have hrotated := h.holds.rotate_left (by omega)
    have htail : q.tail = slot q.capacity q.head (l.length + 1) := h.tail_eq
    rw [h.head_eq, ← h.physicalIndex_head, ← htail] at hrotated
    rw [rotate_cons_succ, rotate_zero]
    exact h.shifted 1 1 rfl (h.physicalIndex_head 1) (h.physicalIndex_tail 1) (by simp)
      (by simp; omega) hrotated

theorem rotateRight : Ring q.rotateRight (l.rotate (l.length - 1)) := by
  rcases eq_nil_or_concat l with rfl | ⟨l, x, rfl⟩
  · exact h.shifted (-1) (-1) rfl (h.physicalIndex_head (-1)) (h.physicalIndex_tail (-1)) (by simp)
      h.length_le holds_nil
  simp only [concat_eq_append] at h hlt ⊢
  rw [length_append, length_singleton] at hlt ⊢
  have hrotated := h.holds.rotate_right (by omega)
  rw [← h.physicalIndex_head, ← h.physicalIndex_last] at hrotated
  rw [Nat.add_sub_cancel, rotate_append_length_eq]
  exact h.shifted (-1) (-1) rfl (h.physicalIndex_head (-1)) (h.physicalIndex_tail (-1)) (by simp)
    (by simp; omega) hrotated

theorem iterate_rotateLeft (n : ℕ) : Ring (Deque.rotateLeft^[n] q) (l.rotate n) := by
  induction n generalizing q l with
  | zero => simpa using h
  | succ n ih =>
    rw [Function.iterate_succ_apply, add_comm, ← rotate_rotate]
    exact ih (h.rotateLeft hlt) (by rwa [length_rotate])

theorem iterate_rotateRight (n : ℕ) :
    Ring (Deque.rotateRight^[n] q) (l.rotate (n * (l.length - 1))) := by
  induction n generalizing q l with
  | zero => simpa using h
  | succ n ih =>
    have hstep := ih (h.rotateRight hlt) (by rwa [length_rotate])
    rw [rotate_rotate, length_rotate] at hstep
    rwa [Function.iterate_succ_apply, Nat.succ_mul, add_comm]

end

end Ring

end Deque
