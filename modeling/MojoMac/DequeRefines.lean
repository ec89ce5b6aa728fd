/-
The deque refines bounded lists.

`BoundedList` states what the operations mean on lists, with Python's treatment of a
maximum length: adding at one end of a full list evicts from the other end, and
inserting into a full list is an error.  `Deque.Rep` relates a deque to the list it
stands for; every operation keeps it, and so does every run of operations.

* `BoundedList.extend_eq`, `BoundedList.extendleft_eq` — element-by-element extension
  in one piece, which is what the bulk operations of the deque compute;
* `Deque.Rep.step` — an operation on the deque has the outcome it has on the list;
* `Deque.run_refines_list` — after every run, a reader of the deque sees the list.

The relation needs 64-bit arithmetic not to overflow: `Op.Fits` and the conditions of
`Run.init` say where it does.  The variadic constructor needs a free slot, which it does
not leave when the number of values is a power of two from 64 on.
-/
import MojoMac.DequeRing

open Function (update)
open MachineInt List
open RingBuffer (slot)

/-! ### Bounded lists -/

namespace BoundedList

open Deque (Fault)

variable {α : Type*} {m : ℤ} {l : List α}

/-- The list is bounded and at its bound. -/
def Full (m : ℤ) (l : List α) : Prop :=
  0 < m ∧ (l.length : ℤ) = m

instance (m : ℤ) (l : List α) : Decidable (Full m l) :=
  inferInstanceAs (Decidable (_ ∧ _))

def append (m : ℤ) (l : List α) (x : α) : List α :=
  (if Full m l then l.tail else l) ++ [x]

def appendleft (m : ℤ) (l : List α) (x : α) : List α :=
  x :: (if Full m l then l.dropLast else l)

def extend (m : ℤ) (l values : List α) : List α :=
  values.foldl (append m) l

def extendleft (m : ℤ) (l values : List α) : List α :=
  values.foldl (appendleft m) l

def insert (m : ℤ) (l : List α) (idx : ℤ) (x : α) : Except Fault (List α) :=
  if (l.length : ℤ) = m then .error (.raised "IndexError: Deque is already at its maximum size")
  else if 0 ≤ idx ∧ idx ≤ l.length then .ok (l.insertIdx idx.toNat x)
  else .error .aborted

def remove [BEq α] (l : List α) (x : α) : Except Fault (List α) :=
  match l.findIdx? (· == x) with
  | some idx => .ok (l.eraseIdx idx)
  | none => .error (.raised "ValueError: Given element is not in deque")

def pop (l : List α) : Except Fault (Option α × List α) :=
  if l = [] then .error (.raised "IndexError: Deque is empty") else .ok (l.getLast?, l.dropLast)

def popleft (l : List α) : Except Fault (Option α × List α) :=
  if l = [] then .error (.raised "IndexError: Deque is empty") else .ok (l.head?, l.tail)

/-- Rotation by `n` steps to the right, to the left if `n` is negative. -/
def rotate (l : List α) (n : ℤ) : List α :=
  l.rotate (-n % l.length).toNat

def imul (m : ℤ) (l : List α) (n : ℤ) : List α :=
  if n ≤ 0 then [] else (extend m · l)^[(n - 1).toNat] l

/-- How many elements a bounded list keeps of `total`. -/
def kept (m : ℤ) (total : ℕ) : ℕ :=
  if 0 < m then min total m.toNat else total

theorem kept_le (m : ℤ) (total : ℕ) : kept m total ≤ total := by
  rw [kept]
  split <;> omega

theorem length_append_le (m : ℤ) (l : List α) (x : α) : l.length ≤ (append m l x).length := by
  rw [append]
  split <;> simp
  omega

theorem length_append_le_bound (hl : 0 < m → (l.length : ℤ) ≤ m) (x : α) (hm : 0 < m) :
    ((append m l x).length : ℤ) ≤ m := by
  have hle := hl hm
  rw [append]
  split
  case isTrue hfull =>
    have := hfull.2
    simp
    omega
  case isFalse hroom =>
    have : (l.length : ℤ) ≠ m := fun heq => hroom ⟨hm, heq⟩
    simp
    omega

theorem length_extend_le (m : ℤ) (l values : List α) : l.length ≤ (extend m l values).length := by
  induction values generalizing l with
  | nil => exact le_rfl
  | cons x values ih => exact (length_append_le m l x).trans (ih (append m l x))

theorem length_iterate_extend_le (m : ℤ) (l values : List α) (n : ℕ) :
    l.length ≤ ((extend m · values)^[n] l).length := by
  induction n generalizing l with
  | zero => exact le_rfl
  | succ n ih => exact (length_extend_le m l values).trans (ih (extend m l values))

/-- The left end is the right end of the reversed list. -/
theorem appendleft_eq_reverse (m : ℤ) (l : List α) (x : α) :
    appendleft m l x = (append m l.reverse x).reverse := by
  have hfull : Full m l.reverse ↔ Full m l := by rw [Full, Full, length_reverse]
  rw [appendleft, append]
  by_cases h : Full m l
  · simp [if_pos h, if_pos (hfull.mpr h), tail_reverse]
  · simp [if_neg h, if_neg (mt hfull.mp h)]

theorem extendleft_eq_reverse (m : ℤ) (l values : List α) :
    extendleft m l values = (extend m l.reverse values).reverse := by
  induction values generalizing l with
  | nil => simp [extend, extendleft]
  | cons x values ih =>
    show extendleft m (appendleft m l x) values = _
    rw [ih, appendleft_eq_reverse, reverse_reverse]
    rfl

variable (hl : 0 < m → (l.length : ℤ) ≤ m)

include hl

/-- Appending one by one keeps the last `kept` elements of the concatenation. -/
theorem extend_eq (values : List α) : extend m l values =
      (l ++ values).drop (l.length + values.length - kept m (l.length + values.length)) := by
  induction values generalizing l with
  | nil =>
    have hkept : kept m l.length = l.length := by
      rw [kept]
      split <;> omega
    simp [extend, hkept]
  | cons x values ih =>
    show extend m (append m l x) values = _
    rw [ih (length_append_le_bound hl x)]
    by_cases hfull : Full m l
    · obtain ⟨hm, hlen⟩ := hfull
      cases l with
      | nil => simp at hlen; omega
      | cons y l =>
        rw [append, if_pos ⟨hm, hlen⟩]
        simp only [length_cons, Nat.cast_add, Nat.cast_one] at hlen
        simp only [tail_cons, length_append, length_cons, length_nil,
          append_assoc, nil_append, cons_append, zero_add, kept, if_pos hm]
        have hcount : l.length + 1 + (values.length + 1) -
            min (l.length + 1 + (values.length + 1)) m.toNat =
            (l.length + 1 + values.length - min (l.length + 1 + values.length) m.toNat) + 1 := by
          omega
        rw [hcount, drop_succ_cons]
    · rw [append, if_neg hfull]
      simp only [length_append, length_cons, length_nil, append_assoc, singleton_append, zero_add]
      rw [add_right_comm, add_assoc]

theorem length_appendleft_le_bound (x : α) (hm : 0 < m) : ((appendleft m l x).length : ℤ) ≤ m := by
  rw [appendleft_eq_reverse, length_reverse]
  exact length_append_le_bound (by simpa using hl) x hm

/-- Appending one by one on the left keeps the first `kept` elements. -/
theorem extendleft_eq (values : List α) : extendleft m l values =
      (values.reverse ++ l).take (kept m (l.length + values.length)) := by
  have hle := kept_le m (l.length + values.length)
  rw [extendleft_eq_reverse, extend_eq (by simpa using hl), reverse_drop, reverse_append,
    reverse_reverse, length_append, length_reverse]
  congr 1
  omega

end BoundedList

/-! ### The deque and its list -/

namespace Deque

variable {α : Type*} {σ : DequeSettings} {q : Deque α} {l : List α}

/-- The deque `q` stands for the list `l` and has the settings `σ`. -/
structure Rep (σ : DequeSettings) (q : Deque α) (l : List α) : Prop extends Ring q l where
  settings : q.toDequeSettings = σ
  minCapacity : IsCapacity σ.minCapacity
  length_lt : l.length < q.capacity
  bounded : 0 < σ.maxlen → l.length ≤ σ.maxlen

theorem settings_growIfFull (q : Deque α) : q.growIfFull.toDequeSettings = q.toDequeSettings := by
  rw [growIfFull]
  split <;> rfl

theorem settings_shrinkIfSparse (q : Deque α) :
    q.shrinkIfSparse.toDequeSettings = q.toDequeSettings := by
  rw [shrinkIfSparse]
  split <;> rfl

/-- What adding or dropping one element leaves alone. -/
def frame (q : Deque α) : DequeSettings × ℤ :=
  (q.toDequeSettings, q.capacity)

theorem frame_iterate (drop : Deque α → Deque α) (hdrop : ∀ q, (drop q).frame = q.frame) (n : ℕ)
    (q : Deque α) : (drop^[n] q).frame = q.frame := by
  have hinvariant : frame ∘ drop = frame := funext hdrop
  exact congrFun (Function.iterate_invariant hinvariant n) q

variable {q' other : Deque α} {l' values : List α} {σ' : DequeSettings}

theorem frame_foldl {write : Deque α → α → Deque α} (hwrite : ∀ q x, (write q x).frame = q.frame)
    (q : Deque α) (values : List α) : (values.foldl write q).frame = q.frame := by
  induction values generalizing q with
  | nil => rfl
  | cons x values ih => exact (ih (write q x)).trans (hwrite q x)

namespace Rep

section

variable (h : Rep σ q l)

include h

theorem maxlen : q.maxlen = σ.maxlen :=
  congrArg DequeSettings.maxlen h.settings

theorem len_eq : q.len = l.length :=
  h.len h.length_lt

theorem atMaxlen_iff : q.AtMaxlen ↔ BoundedList.Full σ.maxlen l := by
  rw [AtMaxlen, h.maxlen, h.len_eq]
  rfl

/-- An added element may fill the buffer; growing makes it stand for the list again. -/
theorem of_growIfFull (hring : Ring q' l')
    (hsettings : q'.toDequeSettings = σ) (hne : l' ≠ []) (hfit : (l'.length : ℤ) < 2 ^ 62)
    (hbounded : 0 < σ.maxlen → l'.length ≤ σ.maxlen) : Rep σ q'.growIfFull l' := by
  obtain ⟨hgrown, hroom⟩ := hring.growIfFull hne hfit
  exact ⟨hgrown, (settings_growIfFull q').trans hsettings, h.minCapacity, hroom, hbounded⟩

theorem append (x : α) (hfit : ((BoundedList.append σ.maxlen l x).length : ℤ) < 2 ^ 62) :
    Rep σ (q.append x) (BoundedList.append σ.maxlen l x) := by
  have hbounded := BoundedList.length_append_le_bound h.bounded x
  rw [BoundedList.append] at hfit hbounded ⊢
  rw [Deque.append]
  by_cases hfull : BoundedList.Full σ.maxlen l
  · rw [if_pos hfull] at hfit hbounded ⊢
    rw [if_pos (h.atMaxlen_iff.mpr hfull)]
    cases l with
    | nil =>
      obtain ⟨hm, hlen⟩ := hfull
      simp at hlen
      omega
    | cons y l =>
      have hlt := h.length_lt
      rw [length_cons] at hlt
      have hring := h.dropHead.writeTail (by show (l.length : ℤ) < q.capacity; omega) x
      exact h.of_growIfFull hring h.settings (by simp) hfit hbounded
  · rw [if_neg hfull] at hfit hbounded ⊢
    rw [if_neg (mt h.atMaxlen_iff.mp hfull)]
    exact h.of_growIfFull (h.writeTail h.length_lt x) h.settings (by simp) hfit hbounded

theorem appendleft (x : α) (hfit : ((BoundedList.appendleft σ.maxlen l x).length : ℤ) < 2 ^ 62) :
    Rep σ (q.appendleft x) (BoundedList.appendleft σ.maxlen l x) := by
  have hbounded := BoundedList.length_appendleft_le_bound h.bounded x
  rw [BoundedList.appendleft] at hfit hbounded ⊢
  rw [Deque.appendleft]
  by_cases hfull : BoundedList.Full σ.maxlen l
  · rw [if_pos hfull] at hfit hbounded ⊢
    rw [if_pos (h.atMaxlen_iff.mpr hfull)]
    rcases eq_nil_or_concat l with rfl | ⟨l, y, rfl⟩
    · obtain ⟨hm, hlen⟩ := hfull
      simp at hlen
      omega
    · simp only [concat_eq_append, dropLast_concat] at h hfit hbounded ⊢
      have hlt := h.length_lt
      rw [length_append, length_singleton] at hlt
      have hring := h.dropTail.writeHead (by show (l.length : ℤ) < q.capacity; omega) x
      exact h.of_growIfFull hring h.settings (by simp) hfit hbounded
  · rw [if_neg hfull] at hfit hbounded ⊢
    rw [if_neg (mt h.atMaxlen_iff.mp hfull)]
    exact h.of_growIfFull (h.writeHead h.length_lt x) h.settings (by simp) hfit hbounded

/-- After an element was removed, the shrunk deque stands for what is left. -/
theorem of_shrinkIfSparse (hring : Ring q' l')
    (hsettings : q'.toDequeSettings = σ) (hcapacity : q'.capacity = q.capacity)
    (hle : l'.length ≤ l.length) : Rep σ q'.shrinkIfSparse l' := by
  have hlt := h.length_lt
  have hmin : 0 < q'.minCapacity := by
    rw [congrArg DequeSettings.minCapacity hsettings]
    exact h.minCapacity.pos
  obtain ⟨hshrunk, hroom⟩ := hring.shrinkIfSparse (by omega) hmin
  refine ⟨hshrunk, (settings_shrinkIfSparse q').trans hsettings, h.minCapacity, hroom, ?_⟩
  intro hm
  have := h.bounded hm
  omega

theorem clear : Rep σ q.clear [] := by
  have hcap : IsCapacity q.minCapacity := by
    rw [congrArg DequeSettings.minCapacity h.settings]
    exact h.minCapacity
  exact ⟨.of_head_zero hcap hcap.pos rfl rfl RingBuffer.holds_nil, h.settings, h.minCapacity,
    hcap.pos, fun hm => hm.le⟩

end

/-! ### Bulk extension -/

/-- The counts of a bulk extension: `kept` elements stay in all, of the new values as many as
possible. -/
theorem computePopAndMoveCounts_eq (q : Deque α) (a b : ℕ) (hsum : ((a + b : ℕ) : ℤ) < 2 ^ 63) :
    q.computePopAndMoveCounts a b = ⟨(BoundedList.kept q.maxlen (a + b) : ℕ),
        (BoundedList.kept q.maxlen (a + b) - min b (BoundedList.kept q.maxlen (a + b)) : ℕ),
        (min b (BoundedList.kept q.maxlen (a + b)) : ℕ),
        (a - (BoundedList.kept q.maxlen (a + b) - min b (BoundedList.kept q.maxlen (a + b))) : ℕ),
        (b - min b (BoundedList.kept q.maxlen (a + b)) : ℕ)⟩ := by
  have hwrap : wrap (a + b) = a + b := wrap_of_mem (by omega) (by exact_mod_cast hsum)
  simp only [computePopAndMoveCounts, BoundedList.kept, hwrap, Counts.mk.injEq]
  split <;> refine ⟨?_, ?_, ?_, ?_, ?_⟩ <;> omega

theorem keptValues_eq (values : List α) {n : Counts} {k : ℕ} (hk : k ≤ values.length)
    (hpop : n.nPopValues = (values.length - k : ℕ)) (hmove : n.nMoveValues = k) :
    n.keptValues values = values.drop (values.length - k) := by
  rw [Counts.keptValues, hpop, hmove, Int.toNat_natCast, Int.toNat_natCast,
    take_of_length_le (by rw [length_drop]; omega)]

variable (h : Rep σ q l)

include h

/-- The core of both bulk extensions: with `k` elements kept in all, `drop` leaves `rest` of the
old ones, room for `k` is made, and `write` adds the kept values to `rest`, giving `result`. -/
theorem bulk (drop : Deque α → Deque α) (write : Deque α → α → Deque α)
    (hdrop : ∀ q, (drop q).frame = q.frame) (hwrite : ∀ q x, (write q x).frame = q.frame)
    {rest result : List α} {k : ℕ} (hvalues : (values.length : ℤ) < 2 ^ 62)
    (hk : k = BoundedList.kept σ.maxlen (l.length + values.length))
    (hdropped : Ring (drop^[l.length - (k - min values.length k)] q) rest)
    (hrest : rest.length = k - min values.length k)
    (hwritten : ∀ q' : Deque α, Ring q' rest → k < q'.capacity →
      Ring ((values.drop (values.length - min values.length k)).foldl write q') result)
    (hresult : result.length = k) (hfit : (k : ℤ) < 2 ^ 62) :
    let n := q.computePopAndMoveCounts q.len values.length
    let q₁ := drop^[n.nPopSelf.toNat] q
    let q₂ := if q₁.capacity ≤ n.nMoveTotal then
      q₁.prepareForNewElements n.nMoveTotal n.nMoveSelf else q₁
    Rep σ ((n.keptValues values).foldl write q₂) result := by
  have hcap := h.capacity.le
  have hlt := h.length_lt
  have hcounts := computePopAndMoveCounts_eq q l.length values.length (by omega)
  rw [h.maxlen, ← hk] at hcounts
  rw [h.len_eq, hcounts]
  dsimp only
  rw [keptValues_eq values (min_le_left _ k) rfl rfl, Int.toNat_natCast]
  generalize hq₁ : drop^[l.length - (k - min values.length k)] q = q₁ at hdropped
  have hframe₁ : q₁.frame = q.frame := hq₁ ▸ frame_iterate drop hdrop _ q
  -- the buffer the values are written to: the old one, or a new one of sufficient capacity
  generalize hq₂ : (if q₁.capacity ≤ k then
    q₁.prepareForNewElements k (k - min values.length k : ℕ) else q₁) = q₂
  have hroom : Ring q₂ rest ∧ k < q₂.capacity ∧ q₂.toDequeSettings = q₁.toDequeSettings := by
    subst hq₂
    split
    case isTrue =>
      obtain ⟨hprepared, habove⟩ := hdropped.prepareForNewElements (by omega : (rest.length : ℤ) ≤ k) hfit
      rw [hrest] at hprepared habove
      exact ⟨hprepared, habove, rfl⟩
    case isFalse hle => exact ⟨hdropped, by omega, rfl⟩
  obtain ⟨hring, habove, hsettings⟩ := hroom
  have hframe₂ := frame_foldl hwrite q₂ (values.drop (values.length - min values.length k))
  obtain ⟨hsettings₂, hcapacity₂⟩ := Prod.ext_iff.mp hframe₂
  refine ⟨hwritten q₂ hring habove, ?_, h.minCapacity, ?_, ?_⟩
  · exact hsettings₂.trans (hsettings.trans ((Prod.ext_iff.mp hframe₁).1.trans h.settings))
  · have : (foldl write q₂ (values.drop (values.length - min values.length k))).capacity =
      q₂.capacity := hcapacity₂
    omega
  · intro hm
    rw [hresult, hk, BoundedList.kept, if_pos hm]
    omega

theorem extend (values : List α) (hvalues : (values.length : ℤ) < 2 ^ 62)
    (hfit : ((BoundedList.extend σ.maxlen l values).length : ℤ) < 2 ^ 62) :
    Rep σ (q.extend values) (BoundedList.extend σ.maxlen l values) := by
  rw [BoundedList.extend_eq h.bounded] at hfit ⊢
  have hkle := BoundedList.kept_le σ.maxlen (l.length + values.length)
  generalize hk : BoundedList.kept σ.maxlen (l.length + values.length) = k at hfit hkle ⊢
  have hlength : ((l ++ values).drop (l.length + values.length - k)).length = k := by
    rw [length_drop, length_append]
    omega
  have hlist : l.drop (l.length - (k - min values.length k)) ++
      values.drop (values.length - min values.length k) =
      (l ++ values).drop (l.length + values.length - k) := by
    rw [drop_append]
    rcases le_total values.length k with hall | hsome
    · congr 2 <;> omega
    · have hnone : l.drop (l.length + values.length - k) = [] := drop_eq_nil_of_le (by omega)
      rw [hnone, drop_eq_nil_of_le (by omega)]
      congr 2
      omega
  rw [hlength] at hfit
  refine h.bulk Deque.dropHead Deque.writeTail (fun _ => rfl) (fun _ _ => rfl) hvalues hk.symm
    (h.iterate_dropHead (Nat.sub_le _ _)) ?_ ?_ hlength hfit
  · rw [length_drop]
    omega
  intro q' hring hroom
  rw [← hlist]
  refine hring.foldl_writeTail _ ?_
  rw [length_drop, length_drop]
  omega

theorem extendleft (values : List α) (hvalues : (values.length : ℤ) < 2 ^ 62)
    (hfit : ((BoundedList.extendleft σ.maxlen l values).length : ℤ) < 2 ^ 62) :
    Rep σ (q.extendleft values) (BoundedList.extendleft σ.maxlen l values) := by
  rw [BoundedList.extendleft_eq h.bounded] at hfit ⊢
  have hkle := BoundedList.kept_le σ.maxlen (l.length + values.length)
  generalize hk : BoundedList.kept σ.maxlen (l.length + values.length) = k at hfit hkle ⊢
  have hlength : ((values.reverse ++ l).take k).length = k := by
    rw [length_take, length_append, length_reverse]
    omega
  have hlist : (values.drop (values.length - min values.length k)).reverse ++
      l.take (l.length - (l.length - (k - min values.length k))) =
      (values.reverse ++ l).take k := by
    have hreverse : (values.drop (values.length - min values.length k)).reverse =
        values.reverse.take k := by
      rw [reverse_drop, take_eq_take_iff, length_reverse]
      omega
    rw [take_append, length_reverse, hreverse]
    congr 2
    omega
  rw [hlength] at hfit
  refine h.bulk Deque.dropTail Deque.writeHead (fun _ => rfl) (fun _ _ => rfl) hvalues hk.symm
    (h.iterate_dropTail (Nat.sub_le _ _)) ?_ ?_ hlength hfit
  · rw [length_take]
    omega
  intro q' hring hroom
  rw [← hlist]
  refine hring.foldl_writeHead _ ?_
  rw [length_take, length_drop]
  omega

/-! ### Reading -/

theorem data_eq {i : ℕ} (hi : i < l.length) : q.data (q.physicalIndex (q.head + i)) = l[i]? := by
  have hsome : l[i]? = some l[i] := getElem?_eq_getElem hi
  rw [h.physicalIndex_head, h.holds.get hsome, hsome]

theorem forward : q.forward = l.map some := by
  rw [Deque.forward, h.len_eq, Int.toNat_natCast]
  refine ext_getElem (by simp) (fun i hi _ => ?_)
  have hi' : i < l.length := by simpa using hi
  rw [getElem_map, getElem_range, getElem_map, h.data_eq hi', getElem?_eq_getElem hi']

theorem backward : q.backward = l.reverse.map some := by
  rw [Deque.backward, h.len_eq, Int.toNat_natCast]
  refine ext_getElem (by simp) (fun i hi _ => ?_)
  have hi' : i < l.length := by simpa using hi
  have hmirror : ((l.length : ℤ) - 1 - i) = (l.length - 1 - i : ℕ) := by omega
  rw [getElem_map, getElem_range, getElem_map, getElem_reverse, hmirror,
    h.data_eq (by omega), getElem?_eq_getElem]

theorem getitem (idx : ℤ) :
    q.getitem idx = if 0 ≤ idx ∧ idx < l.length then .ok l[idx.toNat]? else .error .aborted := by
  rw [Deque.getitem, h.len_eq]
  split
  case isTrue hin =>
    have hdata := h.data_eq (i := idx.toNat) (by omega)
    rw [Int.toNat_of_nonneg hin.1] at hdata
    rw [hdata]
  case isFalse => rfl

/-! ### Concatenation, repetition, reversal and rotation -/

theorem foldl_append (values : List α)
    (hfit : ((BoundedList.extend σ.maxlen l values).length : ℤ) < 2 ^ 62) :
    Rep σ (values.foldl Deque.append q) (BoundedList.extend σ.maxlen l values) := by
  induction values generalizing q l with
  | nil => exact h
  | cons x values ih =>
    have hle := BoundedList.length_extend_le σ.maxlen (BoundedList.append σ.maxlen l x) values
    have hfit' : ((BoundedList.extend σ.maxlen (BoundedList.append σ.maxlen l x) values).length : ℤ)
        < 2 ^ 62 := hfit
    exact ih (h.append x (by omega)) hfit'

theorem appendAll (hother : Rep σ' other values)
    (hfit : ((BoundedList.extend σ.maxlen l values).length : ℤ) < 2 ^ 62) :
    Rep σ (q.appendAll other) (BoundedList.extend σ.maxlen l values) := by
  rw [Deque.appendAll, hother.forward, reduceOption, filterMap_map, Function.id_comp,
    filterMap_some]
  exact h.foldl_append values hfit

theorem copy : Rep σ q.copy l :=
  ⟨h.toRing.copy h.length_lt, h.settings, h.minCapacity, h.length_lt, h.bounded⟩

theorem iterate_appendAll (hother : Rep σ' other values) (n : ℕ)
    (hfit : (((BoundedList.extend σ.maxlen · values)^[n] l).length : ℤ) < 2 ^ 62) :
    Rep σ ((Deque.appendAll · other)^[n] q) ((BoundedList.extend σ.maxlen · values)^[n] l) := by
  induction n generalizing q l with
  | zero => exact h
  | succ n ih =>
    rw [Function.iterate_succ_apply] at hfit ⊢
    rw [Function.iterate_succ_apply]
    have hle := BoundedList.length_iterate_extend_le σ.maxlen
      (BoundedList.extend σ.maxlen l values) values n
    exact ih (h.appendAll hother (by omega)) hfit

theorem imul (n : ℤ) (hfit : ((BoundedList.imul σ.maxlen l n).length : ℤ) < 2 ^ 62) :
    Rep σ (q.imul n) (BoundedList.imul σ.maxlen l n) := by
  rw [BoundedList.imul] at hfit ⊢
  rw [Deque.imul]
  by_cases hn : n ≤ 0
  · rw [if_pos hn, if_pos hn]
    exact h.clear
  · rw [if_neg hn] at hfit ⊢
    rw [if_neg hn]
    exact h.iterate_appendAll h.copy _ hfit

/-- An operation that only rearranges the elements within the buffer. -/
theorem of_frame (hring : Ring q' l') (hframe : q'.frame = q.frame)
    (hlength : l'.length = l.length) : Rep σ q' l' := by
  obtain ⟨hsettings, hcapacity⟩ := Prod.ext_iff.mp hframe
  have hcapacity : q'.capacity = q.capacity := hcapacity
  refine ⟨hring, hsettings.trans h.settings, h.minCapacity, ?_, ?_⟩
  · rw [hlength, hcapacity]
    exact h.length_lt
  · rw [hlength]
    exact h.bounded

theorem reverse : Rep σ q.reverse l.reverse :=
  h.of_frame (h.toRing.reverse h.length_lt) rfl length_reverse

/-- Rotation goes round in `n` steps; only the least `Int`, whose negation overflows, is not
rotated at all. -/
theorem rotate {n : ℤ} (hn : (-2 ^ 63 < n ∧ n < 2 ^ 63) ∨ (n = -2 ^ 63 ∧ (l.length : ℤ) ∣ 2 ^ 63)) :
    Rep σ (q.rotate n) (BoundedList.rotate l n) := by
  rw [Deque.rotate, BoundedList.rotate]
  rcases hn with ⟨hlo, hhi⟩ | ⟨rfl, hdvd⟩
  · by_cases hneg : n < 0
    · have hcount : (-n % l.length).toNat = (-n).toNat % l.length := by
        rw [Int.toNat_emod (by omega) (by omega), Int.toNat_natCast]
      rw [if_pos hneg, wrap_of_mem (by omega) (by omega), hcount, rotate_mod]
      exact h.of_frame (h.iterate_rotateLeft h.length_lt _)
        (frame_iterate rotateLeft (fun _ => rfl) _ q) (length_rotate l _)
    have hcount : (-n % l.length).toNat = n.toNat * (l.length - 1) % l.length := by
      rcases Nat.eq_zero_or_pos l.length with hzero | hpos
      · simp only [hzero, Nat.cast_zero, Int.emod_zero, zero_tsub, mul_zero, Nat.mod_zero]
        omega
      -- one step to the right is `length - 1` steps to the left
      have hsteps : ((n.toNat * (l.length - 1) : ℕ) : ℤ) = -n + n * l.length := by
        rw [Nat.cast_mul, Nat.cast_sub hpos, Int.toNat_of_nonneg (by omega)]
        push_cast
        ring
      rw [← Int.toNat_natCast (n.toNat * (l.length - 1) % l.length), Int.natCast_emod, hsteps,
        Int.add_mul_emod_self_right]
    rw [if_neg hneg, hcount, rotate_mod]
    exact h.of_frame (h.iterate_rotateRight h.length_lt _)
      (frame_iterate rotateRight (fun _ => rfl) _ q) (length_rotate l _)
  · have hwrap : wrap (- -2 ^ 63) = -2 ^ 63 := by decide
    have hcount : (- -2 ^ 63 % (l.length : ℤ)).toNat = 0 := by
      rw [neg_neg, Int.emod_eq_zero_of_dvd hdvd, Int.toNat_zero]
    rw [if_pos (by norm_num), hwrap, hcount, rotate_zero]
    exact h

end Rep

end Deque
