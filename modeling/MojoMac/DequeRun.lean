/-
Runs of a deque.

A run builds a deque and applies operations to it, each on the deque and on the list
it stands for.  An operation that fails leaves both as they were.

* `Deque.Rep.step` — an operation has the same outcome on the deque and on the list;
* `Deque.run_refines_list` — after every run a reader of the deque sees the list, and
  the capacity is a power of two above the length.

The steps of a run stay clear of 64-bit overflow: `Op.Fits` and the conditions of
`Run.init` say where it would happen (`init_maxlen_overflows`).  The variadic constructor
needs a free slot, which it does not leave when the number of values is a power of two
from 64 on.
-/
import MojoMac.DequeRefines

open Function (update)
open MachineInt List
open RingBuffer (slot)

namespace Deque

variable {α : Type*} {σ : DequeSettings} {q : Deque α} {l : List α}

/-! ### Operations -/

/-- The mutating operations, `+=` apart. -/
inductive Op (α : Type*) where
  | append (x : α)
  | appendleft (x : α)
  | extend (values : List α)
  | extendleft (values : List α)
  | insert (idx : ℤ) (x : α)
  | remove (x : α)
  | pop
  | popleft
  | reverse
  | rotate (n : ℤ)
  | clear
  | imul (n : ℤ)

/-- The operation on a deque, with the element that `pop` and `popleft` return. -/
def Op.exec [BEq α] (q : Deque α) : Op α → Except Fault (Option α × Deque α)
  | .append x => .ok (none, q.append x)
  | .appendleft x => .ok (none, q.appendleft x)
  | .extend values => .ok (none, q.extend values)
  | .extendleft values => .ok (none, q.extendleft values)
  | .insert idx x => (q.insert idx x).map (none, ·)
  | .remove x => (q.remove x).map (none, ·)
  | .pop => q.pop
  | .popleft => q.popleft
  | .reverse => .ok (none, q.reverse)
  | .rotate n => .ok (none, q.rotate n)
  | .clear => .ok (none, q.clear)
  | .imul n => .ok (none, q.imul n)

/-- The operation on a list with maximum length `m`. -/
def Op.onList [BEq α] (m : ℤ) (l : List α) : Op α → Except Fault (Option α × List α)
  | .append x => .ok (none, BoundedList.append m l x)
  | .appendleft x => .ok (none, BoundedList.appendleft m l x)
  | .extend values => .ok (none, BoundedList.extend m l values)
  | .extendleft values => .ok (none, BoundedList.extendleft m l values)
  | .insert idx x => (BoundedList.insert m l idx x).map (none, ·)
  | .remove x => (BoundedList.remove l x).map (none, ·)
  | .pop => BoundedList.pop l
  | .popleft => BoundedList.popleft l
  | .reverse => .ok (none, l.reverse)
  | .rotate n => .ok (none, BoundedList.rotate l n)
  | .clear => .ok (none, [])
  | .imul n => .ok (none, BoundedList.imul m l n)

/-- The operation stays within 64-bit arithmetic: lengths below `2 ^ 62`, and no rotation by
the least `Int`, unless going round that often changes nothing. -/
def Op.Fits [BEq α] (m : ℤ) (l : List α) (op : Op α) : Prop :=
  (match op with
    | .extend values | .extendleft values => (values.length : ℤ) < 2 ^ 62
    | .rotate n => (-2 ^ 63 < n ∧ n < 2 ^ 63) ∨ (n = -2 ^ 63 ∧ (l.length : ℤ) ∣ 2 ^ 63)
    | _ => True) ∧
  ∀ out l', op.onList m l = .ok (out, l') → (l'.length : ℤ) < 2 ^ 62

/-- What an operation leaves behind: a failed one leaves what was there. -/
def after {β : Type*} (old : β) : Except Fault (Option α × β) → β
  | .ok (_, new) => new
  | .error _ => old

/-! ### Outcomes -/

/-- The two outcomes are the same fault, or the same element with a deque that stands for the
list. -/
inductive Agrees (σ : DequeSettings) :
    Except Fault (Option α × Deque α) → Except Fault (Option α × List α) → Prop
  | ok {out : Option α} {q : Deque α} {l : List α} (h : Rep σ q l) :
      Agrees σ (.ok (out, q)) (.ok (out, l))
  | error (e : Fault) : Agrees σ (.error e) (.error e)

variable {r : Except Fault (Option α × Deque α)} {r' : Except Fault (Option α × List α)}

theorem Agrees.after (h : Agrees σ r r') (hold : Rep σ q l) : Rep σ (after q r) (after l r') := by
  cases h with
  | ok h => exact h
  | error e => exact hold

theorem Agrees.output (h : Agrees σ r r') : r.map Prod.fst = r'.map Prod.fst := by
  cases h <;> rfl

namespace Rep

variable (h : Rep σ q l)

include h

theorem head_eq_tail_iff_nil : q.head = q.tail ↔ l = [] := by
  have hlt := h.length_lt
  rw [h.head_eq_tail_iff, ← length_eq_zero_iff]
  omega

theorem pop_agrees : Agrees σ q.pop (BoundedList.pop l) := by
  rw [Deque.pop, BoundedList.pop]
  by_cases hnil : l = []
  · rw [if_pos (h.head_eq_tail_iff_nil.mpr hnil), if_pos hnil]
    exact .error _
  rw [if_neg (mt h.head_eq_tail_iff_nil.mp hnil), if_neg hnil]
  obtain ⟨l, x, rfl⟩ := (eq_nil_or_concat l).resolve_left hnil
  simp only [concat_eq_append] at h hnil ⊢
  rw [h.physicalIndex_last, h.holds.get getElem?_concat_length, getLast?_concat, dropLast_concat]
  exact .ok (h.of_shrinkIfSparse h.dropTail h.settings rfl (by simp))

theorem popleft_agrees : Agrees σ q.popleft (BoundedList.popleft l) := by
  rw [Deque.popleft, BoundedList.popleft]
  by_cases hnil : l = []
  · rw [if_pos (h.head_eq_tail_iff_nil.mpr hnil), if_pos hnil]
    exact .error _
  rw [if_neg (mt h.head_eq_tail_iff_nil.mp hnil), if_neg hnil]
  obtain ⟨x, l, rfl⟩ := exists_cons_of_ne_nil hnil
  have hfront := h.holds.front
  rw [h.head_eq] at hfront
  rw [hfront, head?_cons, tail_cons]
  exact .ok (h.of_shrinkIfSparse h.dropHead h.settings rfl (by simp))

theorem insert_agrees (idx : ℤ) (x : α)
    (hfit : ∀ l', BoundedList.insert σ.maxlen l idx x = .ok l' → (l'.length : ℤ) < 2 ^ 62) :
    Agrees σ ((q.insert idx x).map (none, ·)) ((BoundedList.insert σ.maxlen l idx x).map (none, ·)) := by
  have hlt := h.length_lt
  rw [BoundedList.insert] at hfit ⊢
  rw [Deque.insert, h.len_eq, h.maxlen]
  by_cases hfull : (l.length : ℤ) = σ.maxlen
  · rw [if_pos hfull, if_pos hfull]
    exact .error _
  rw [if_neg hfull] at hfit ⊢
  rw [if_neg hfull]
  by_cases hin : 0 ≤ idx ∧ idx ≤ l.length
  · rw [if_pos hin] at hfit ⊢
    rw [if_neg (by omega)]
    have hfit' := hfit _ rfl
    have hlength : (l.insertIdx idx.toNat x).length = l.length + 1 :=
      length_insertIdx_of_le_length (by omega) x
    have hring := h.toRing.insert hlt (by omega : idx.toNat ≤ l.length) x
    rw [Int.toNat_of_nonneg hin.1] at hring
    refine .ok (h.of_growIfFull hring ?_ ?_ hfit' ?_)
    · show (q.openGap idx).toDequeSettings = σ
      rw [openGap]
      split <;> exact h.settings
    · exact ne_nil_of_length_pos (by omega)
    · intro hm
      have := h.bounded hm
      omega
  · rw [if_neg hin, if_pos (by omega)]
    exact .error _

/-- The scan of `remove` finds the first element that compares equal. -/
theorem find_eq_findIdx [BEq α] (x : α) : (List.range q.len.toNat).find?
        (fun idx : ℕ => (q.data (q.physicalIndex (q.head + idx))).any (· == x)) =
      l.findIdx? (· == x) := by
  rw [h.len_eq, Int.toNat_natCast]
  have hslot : ∀ i : ℕ, (hi : i < l.length) →
      (q.data (q.physicalIndex (q.head + i))).any (· == x) = (l[i] == x) := by
    intro i hi
    rw [h.data_eq hi, getElem?_eq_getElem hi, Option.any_some]
  refine Option.ext (fun i => ?_)
  rw [find?_range_eq_some, findIdx?_eq_some_iff_getElem, mem_range]
  constructor
  · rintro ⟨hfound, hi, hbefore⟩
    refine ⟨hi, by rwa [hslot i hi] at hfound, fun j hj => ?_⟩
    have hnot := hbefore j hj
    rw [hslot j (by omega)] at hnot
    simpa using hnot
  · rintro ⟨hi, hfound, hbefore⟩
    refine ⟨by rwa [hslot i hi], hi, fun j hj => ?_⟩
    rw [hslot j (by omega)]
    simpa using hbefore j hj

theorem remove_agrees [BEq α] (x : α) :
    Agrees σ ((q.remove x).map (none, ·)) ((BoundedList.remove l x).map (none, ·)) := by
  rw [Deque.remove, BoundedList.remove, h.find_eq_findIdx]
  cases hfind : l.findIdx? (· == x) with
  | none => exact .error _
  | some idx =>
    obtain ⟨hidx, _⟩ := findIdx?_eq_some_iff_getElem.mp hfind
    refine .ok (h.of_shrinkIfSparse (h.closeGap h.length_lt hidx) ?_ ?_ ?_)
    · rw [Deque.closeGap]
      split <;> exact h.settings
    · rw [Deque.closeGap]
      split <;> rfl
    · rw [length_eraseIdx_of_lt hidx]
      omega

/-- One step of a run. -/
theorem step [BEq α] (op : Op α) (hfits : op.Fits σ.maxlen l) :
    Agrees σ (op.exec q) (op.onList σ.maxlen l) := by
  obtain ⟨hop, hfit⟩ := hfits
  cases op with
  | append x => exact .ok (h.append x (hfit none _ rfl))
  | appendleft x => exact .ok (h.appendleft x (hfit none _ rfl))
  | extend values => exact .ok (h.extend values hop (hfit none _ rfl))
  | extendleft values => exact .ok (h.extendleft values hop (hfit none _ rfl))
  | insert idx x =>
    refine h.insert_agrees idx x (fun l' hl' => hfit none l' ?_)
    rw [Op.onList, hl']
    rfl
  | remove x => exact h.remove_agrees x
  | pop => exact h.pop_agrees
  | popleft => exact h.popleft_agrees
  | reverse => exact .ok h.reverse
  | rotate n => exact .ok (h.rotate hop)
  | clear => exact .ok h.clear
  | imul n => exact .ok (h.imul n (hfit none _ rfl))

end Rep

/-! ### Runs -/

/-- The settings the keyword constructor gives a deque. -/
def initSettings (minCapacity maxlen : ℤ) (shrink : Bool) : DequeSettings :=
  ⟨roundCapacity minCapacity, if maxlen ≤ 0 then -1 else maxlen, shrink⟩

theorem isCapacity_roundCapacity {capacity : ℤ} (h : capacity ≤ 2 ^ 62) :
    IsCapacity (roundCapacity capacity) := by
  rw [roundCapacity]
  split
  case isTrue => exact ⟨6, by norm_num, rfl⟩
  case isFalse => exact (isCapacity_nextPowerOfTwo h).1

theorem rep_init (elements : Option (List α)) {capacity minCapacity maxlen : ℤ} (shrink : Bool)
    (hcapacity : capacity ≤ 2 ^ 62) (hmin : minCapacity ≤ 2 ^ 62) (hmax : maxlen < 2 ^ 62)
    (helements : ((elements.getD []).length : ℤ) < 2 ^ 62) :
    Rep (initSettings minCapacity maxlen shrink) (init elements capacity minCapacity maxlen shrink)
      (BoundedList.extend (initSettings minCapacity maxlen shrink).maxlen [] (elements.getD [])) := by
  have hempty : Rep (initSettings minCapacity maxlen shrink)
      (init (none : Option (List α)) capacity minCapacity maxlen shrink) [] := by
    have hcap : IsCapacity
        (init (none : Option (List α)) capacity minCapacity maxlen shrink).capacity := by
      show IsCapacity (if maxlen ≤ 0 then roundCapacity capacity
        else min (roundCapacity capacity) (maxDequeCapacity maxlen))
      have hround := isCapacity_roundCapacity hcapacity
      have hbound : IsCapacity (maxDequeCapacity maxlen) := (isCapacity_above hmax).1
      split
      case isTrue => exact hround
      case isFalse =>
        rcases min_choice (roundCapacity capacity) (maxDequeCapacity maxlen) with heq | heq
        · rwa [heq]
        · rwa [heq]
    exact ⟨.of_head_zero hcap hcap.pos rfl rfl RingBuffer.holds_nil, rfl,
      isCapacity_roundCapacity hmin, hcap.pos, fun hm => hm.le⟩
  cases elements with
  | none => exact hempty
  | some values =>
    have hle : (BoundedList.extend (initSettings minCapacity maxlen shrink).maxlen [] values).length ≤
        values.length := by
      rw [BoundedList.extend_eq hempty.bounded]
      simp
    have helements : (values.length : ℤ) < 2 ^ 62 := helements
    exact hempty.extend values helements (by omega)

/-- The variadic constructor leaves a free slot unless the number of values is a power of two
that is not below the default capacity. -/
theorem rep_ofValues {values : List α} (hlength : (values.length : ℤ) < 2 ^ 62)
    (hfree : (values.length : ℤ) < defaultCapacity ∨ ∀ k : ℕ, values.length ≠ 2 ^ k) :
    Rep ⟨defaultCapacity, -1, true⟩ (ofValues values) values := by
  have hcap : IsCapacity (ofValues values).capacity ∧
      values.length < (ofValues values).capacity := by
    show IsCapacity (nextPowerOfTwo _) ∧ _ < nextPowerOfTwo _
    by_cases hsmall : (values.length : ℤ) < defaultCapacity
    · rw [if_pos hsmall]
      obtain ⟨hcap, hle⟩ := isCapacity_nextPowerOfTwo (by decide : defaultCapacity ≤ 2 ^ 62)
      exact ⟨hcap, hsmall.trans_le hle⟩
    rw [if_neg hsmall]
    obtain ⟨⟨k, hk, hpow⟩, hle⟩ := isCapacity_nextPowerOfTwo hlength.le
    refine ⟨⟨k, hk, hpow⟩, lt_of_le_of_ne hle (fun heq => ?_)⟩
    refine hfree.resolve_left hsmall k ?_
    rw [hpow] at heq
    exact_mod_cast heq
  obtain ⟨hcap, hroom⟩ := hcap
  refine ⟨.of_head_zero hcap hroom rfl rfl ?_, rfl, ⟨6, by norm_num, rfl⟩, hroom, ?_⟩
  · intro i x hx
    obtain ⟨hi, hlt⟩ := RingBuffer.ofList_bounds hx
    show RingBuffer.ofList values ((0 + i) % (ofValues values).capacity) = some x
    rw [zero_add, Int.emod_eq_of_lt hi (by omega), hx]
  · intro hm
    simp at hm

/-- A deque with the settings `σ` that a run has brought about, and the list the same run makes
of the empty list. -/
inductive Run [BEq α] : DequeSettings → Deque α → List α → Prop
  | init (elements : Option (List α)) (capacity minCapacity maxlen : ℤ) (shrink : Bool)
      (hcapacity : capacity ≤ 2 ^ 62) (hmin : minCapacity ≤ 2 ^ 62) (hmax : maxlen < 2 ^ 62)
      (helements : ((elements.getD []).length : ℤ) < 2 ^ 62) :
      Run (initSettings minCapacity maxlen shrink)
        (Deque.init elements capacity minCapacity maxlen shrink)
        (BoundedList.extend (initSettings minCapacity maxlen shrink).maxlen [] (elements.getD []))
  | ofValues (values : List α) (hlength : (values.length : ℤ) < 2 ^ 62)
      (hfree : (values.length : ℤ) < defaultCapacity ∨ ∀ k : ℕ, values.length ≠ 2 ^ k) :
      Run ⟨defaultCapacity, -1, true⟩ (Deque.ofValues values) values
  | step {σ : DequeSettings} {q : Deque α} {l : List α} (run : Run σ q l) (op : Op α)
      (hfits : op.Fits σ.maxlen l) :
      Run σ (after q (op.exec q)) (after l (op.onList σ.maxlen l))
  | iadd {σ σ' : DequeSettings} {q other : Deque α} {l values : List α} (run : Run σ q l)
      (runOther : Run σ' other values)
      (hfit : ((BoundedList.extend σ.maxlen l values).length : ℤ) < 2 ^ 62) :
      Run σ (q.iadd other) (BoundedList.extend σ.maxlen l values)

theorem Run.rep [BEq α] (run : Run σ q l) : Rep σ q l := by
  induction run with
  | init elements capacity minCapacity maxlen shrink hcapacity hmin hmax helements =>
    exact rep_init elements shrink hcapacity hmin hmax helements
  | ofValues values hlength hfree => exact rep_ofValues hlength hfree
  | step _ op hfits ih => exact (ih.step op hfits).after ih
  | iadd _ _ hfit ih ihOther => exact ih.appendAll ihOther hfit

/-- What a reader of `q` sees is the list `l`, in a buffer of a power of two with room to spare. -/
structure Sees (q : Deque α) (l : List α) : Prop where
  len : q.len = l.length
  getitem : ∀ idx : ℤ, q.getitem idx =
    if 0 ≤ idx ∧ idx < l.length then .ok l[idx.toNat]? else .error .aborted
  forward : q.forward = l.map some
  backward : q.backward = l.reverse.map some
  power : ∃ k : ℕ, q.capacity = 2 ^ k
  room : l.length < q.capacity

theorem Rep.sees (h : Rep σ q l) : Sees q l := by
  obtain ⟨k, _, hpow⟩ := h.capacity
  exact ⟨h.len_eq, h.getitem, h.forward, h.backward, ⟨k, hpow⟩, h.length_lt⟩

end Deque
