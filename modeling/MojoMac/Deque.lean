/-
The double-ended queue of the standard library (`collections/deque.mojo`).

The deque is a ring buffer whose capacity is a power of two, so that indices are
wrapped with a bit mask.  A slot is `none` while it is uninitialised; moving out
of a slot or destroying its element leaves `none`.

* `Deque.init`, `Deque.ofValues` — the keyword and the variadic constructor;
* `Deque.realloc`, `Deque.prepareForNewElements` — the two reallocations;
* `Deque.append` … `Deque.imul` — the mutating operations;
* `Deque.len`, `Deque.getitem`, `Deque.forward`, `Deque.backward` — what a reader sees.
-/
import MojoMac.MachineInt
import MojoMac.RingBuffer

open Function (update)
open MachineInt
open RingBuffer (moves swaps transfers)

/-! ### The deque -/

/-- The settings a deque keeps for life: `_min_capacity`, `_maxlen` and `_shrink`. -/
structure DequeSettings where
  minCapacity : ℤ
  maxlen : ℤ
  shrink : Bool
deriving DecidableEq

/-- A deque: `data` is the buffer behind the pointer `_data`. -/
structure Deque (α : Type*) extends DequeSettings where
  data : ℤ → Option α
  head : ℤ
  tail : ℤ
  capacity : ℤ

namespace Deque

variable {α : Type*} (q : Deque α)

/-- How an operation fails: it raises an error the caller can catch, or a failed
`check_bounds` aborts the program. -/
inductive Fault where
  | raised (message : String)
  | aborted
deriving DecidableEq

def defaultCapacity : ℤ := 64

/-- `_physical_index`. -/
def physicalIndex (logicalIndex : ℤ) : ℤ :=
  land logicalIndex (q.capacity - 1)

/-- `__len__`. -/
def len : ℤ :=
  land (q.tail - q.head) (q.capacity - 1)

/-! ### Reallocation -/

/-- `_realloc`.  With `head == tail` the deque is empty or full, and it is taken to be full
exactly when the buffer grows. -/
def realloc (newCapacity : ℤ) : Deque α :=
  let isFull := q.head = q.tail ∧ q.capacity < newCapacity
  let dequeLen := if isFull then q.capacity else q.len
  let headLen := if dequeLen < q.capacity - q.head then dequeLen else q.capacity - q.head
  let tailLen := if dequeLen < q.capacity - q.head then 0 else q.tail
  let newData := transfers (fun _ => none) q.data (fun i => q.head + i) (fun i => i) headLen.toNat
  let newData := transfers newData q.data (fun i => i) (fun i => headLen + i) tailLen.toNat
  { q with data := newData, head := 0, tail := dequeLen, capacity := newCapacity }

/-- `_prepare_for_new_elements`. -/
def prepareForNewElements (nTotal nRetain : ℤ) : Deque α :=
  let newCapacity := nextPowerOfTwo nTotal
  let newCapacity := if newCapacity = nTotal then wrap (newCapacity * 2) else newCapacity
  { q with
    data := transfers (fun _ => none) q.data (fun i => q.physicalIndex (q.head + i)) (fun i => i)
      nRetain.toNat
    head := 0
    tail := nRetain
    capacity := newCapacity }

/-- The growth after an element was added: `if head == tail: _realloc(capacity << 1)`. -/
def growIfFull : Deque α :=
  if q.head = q.tail then q.realloc (wrap (q.capacity * 2)) else q

/-- The shrinking after an element was removed: `_realloc(capacity >> 1)`. -/
def shrinkIfSparse : Deque α :=
  if q.shrink ∧ q.minCapacity < q.capacity ∧ q.len ≤ q.capacity / 4 then
    q.realloc (q.capacity / 2)
  else q

/-! ### One element at an end -/

/-- Destroy the first element and advance `head`. -/
def dropHead : Deque α :=
  { q with data := update q.data q.head none, head := q.physicalIndex (q.head + 1) }

/-- Step `tail` back and destroy the last element. -/
def dropTail : Deque α :=
  let tail := q.physicalIndex (q.tail - 1)
  { q with data := update q.data tail none, tail := tail }

/-- Write at `tail` and advance it. -/
def writeTail (value : α) : Deque α :=
  { q with data := update q.data q.tail (some value), tail := q.physicalIndex (q.tail + 1) }

/-- Step `head` back and write there. -/
def writeHead (value : α) : Deque α :=
  let head := q.physicalIndex (q.head - 1)
  { q with data := update q.data head (some value), head := head }

/-- The deque is bounded and at its bound. -/
def AtMaxlen : Prop :=
  0 < q.maxlen ∧ q.len = q.maxlen

instance (q : Deque α) : Decidable q.AtMaxlen :=
  inferInstanceAs (Decidable (_ ∧ _))

def append (value : α) : Deque α :=
  let q := if q.AtMaxlen then q.dropHead else q
  (q.writeTail value).growIfFull

def appendleft (value : α) : Deque α :=
  let q := if q.AtMaxlen then q.dropTail else q
  (q.writeHead value).growIfFull

/-- `pop`: the value is what the slot held. -/
def pop : Except Fault (Option α × Deque α) :=
  if q.head = q.tail then .error (.raised "IndexError: Deque is empty")
  else .ok (q.data (q.physicalIndex (q.tail - 1)), q.dropTail.shrinkIfSparse)

def popleft : Except Fault (Option α × Deque α) :=
  if q.head = q.tail then .error (.raised "IndexError: Deque is empty")
  else .ok (q.data q.head, q.dropHead.shrinkIfSparse)

def clear : Deque α :=
  { q with data := fun _ => none, head := 0, tail := 0, capacity := q.minCapacity }

/-! ### Bulk extension -/

/-- The tuple returned by `_compute_pop_and_move_counts`. -/
structure Counts where
  nMoveTotal : ℤ
  nMoveSelf : ℤ
  nMoveValues : ℤ
  nPopSelf : ℤ
  nPopValues : ℤ

/-- `_compute_pop_and_move_counts`. -/
def computePopAndMoveCounts (lenSelf lenValues : ℤ) : Counts :=
  let lenTotal := wrap (lenSelf + lenValues)
  let nMoveTotal := if 0 < q.maxlen then min lenTotal q.maxlen else lenTotal
  let nMoveValues := min lenValues nMoveTotal
  let nMoveSelf := nMoveTotal - nMoveValues
  ⟨nMoveTotal, nMoveSelf, nMoveValues, lenSelf - nMoveSelf, lenValues - nMoveValues⟩

/-- The values of the list argument that are kept: its first `nPopValues` are destroyed. -/
def Counts.keptValues (n : Counts) (values : List α) : List α :=
  (values.drop n.nPopValues.toNat).take n.nMoveValues.toNat

def extend (values : List α) : Deque α :=
  let n := q.computePopAndMoveCounts q.len values.length
  let q := dropHead^[n.nPopSelf.toNat] q
  let q := if q.capacity ≤ n.nMoveTotal then q.prepareForNewElements n.nMoveTotal n.nMoveSelf else q
  (n.keptValues values).foldl writeTail q

def extendleft (values : List α) : Deque α :=
  let n := q.computePopAndMoveCounts q.len values.length
  let q := dropTail^[n.nPopSelf.toNat] q
  let q := if q.capacity ≤ n.nMoveTotal then q.prepareForNewElements n.nMoveTotal n.nMoveSelf else q
  (n.keptValues values).foldl writeHead q

/-! ### Constructors -/

/-- The rounding of a requested capacity, 64 when none is requested. -/
def roundCapacity (capacity : ℤ) : ℤ :=
  if capacity ≤ 0 then defaultCapacity else nextPowerOfTwo capacity

/-- The largest initial capacity of a deque bounded by `maxlen`. -/
def maxDequeCapacity (maxlen : ℤ) : ℤ :=
  if nextPowerOfTwo maxlen = maxlen then wrap (nextPowerOfTwo maxlen * 2)
  else nextPowerOfTwo maxlen

/-- The keyword constructor `Deque(elements=…, capacity=…, min_capacity=…, maxlen=…, shrink=…)`. -/
def init (elements : Option (List α)) (capacity minCapacity maxlen : ℤ) (shrink : Bool) : Deque α :=
  let q : Deque α :=
    { data := fun _ => none
      head := 0
      tail := 0
      capacity :=
        if maxlen ≤ 0 then roundCapacity capacity
        else min (roundCapacity capacity) (maxDequeCapacity maxlen)
      minCapacity := roundCapacity minCapacity
      maxlen := if maxlen ≤ 0 then -1 else maxlen
      shrink := shrink }
  match elements with
  | none => q
  | some values => q.extend values

/-- The variadic constructor `Deque(*values)`, also used for list literals. -/
def ofValues (values : List α) : Deque α :=
  let argsLength : ℤ := values.length
  { data := fun i => if 0 ≤ i then values[i.toNat]? else none
    head := 0
    tail := argsLength
    capacity := nextPowerOfTwo (if argsLength < defaultCapacity then defaultCapacity else argsLength)
    minCapacity := defaultCapacity
    maxlen := -1
    shrink := true }

/-- The copy constructor. -/
def copy : Deque α :=
  { q with
    data := transfers (fun _ => none) q.data (fun i => q.physicalIndex (q.head + i)) (fun i => i)
      q.len.toNat
    head := 0
    tail := q.len }

/-! ### The middle of the deque -/

/-- Make room for index `idx` by moving the elements before it, or those from it on,
whichever side is shorter. -/
def openGap (idx : ℤ) : Deque α :=
  if idx ≤ q.len / 2 then
    { q with
      data := moves q.data (fun i => q.physicalIndex (q.head + i))
        (fun i => q.physicalIndex (q.physicalIndex (q.head + i) - 1)) idx.toNat
      head := q.physicalIndex (q.head - 1) }
  else
    { q with
      data := moves q.data (fun i => q.physicalIndex (q.physicalIndex (q.tail - i) - 1))
        (fun i => q.physicalIndex (q.tail - i)) (q.len - idx).toNat
      tail := q.physicalIndex (q.tail + 1) }

def insert (idx : ℤ) (value : α) : Except Fault (Deque α) :=
  if q.len = q.maxlen then .error (.raised "IndexError: Deque is already at its maximum size")
  else if ¬ (0 ≤ idx ∧ idx < q.len + 1) then .error .aborted
  else
    let q := q.openGap idx
    .ok { q with data := update q.data (q.physicalIndex (q.head + idx)) (some value) }.growIfFull

/-- The element at `idx` is destroyed and the shorter side moves over the gap. -/
def closeGap (idx : ℕ) : Deque α :=
  let data := update q.data (q.physicalIndex (q.head + idx)) none
  if idx < q.len / 2 then
    -- `for i in reversed(range(idx))`: `i` is `idx - 1 - t` in round `t`
    { q with
      data := moves data (fun t => q.physicalIndex (q.head + (idx - 1 - t)))
        (fun t => q.physicalIndex (q.physicalIndex (q.head + (idx - 1 - t)) + 1)) idx
      head := q.physicalIndex (q.head + 1) }
  else
    { q with
      data := moves data (fun t => q.physicalIndex (q.head + (idx + 1 + t)))
        (fun t => q.physicalIndex (q.physicalIndex (q.head + (idx + 1 + t)) - 1))
        (q.len - (idx + 1)).toNat
      tail := q.physicalIndex (q.tail - 1) }

def remove [BEq α] (q : Deque α) (value : α) : Except Fault (Deque α) :=
  match (List.range q.len.toNat).find?
      (fun idx : ℕ => (q.data (q.physicalIndex (q.head + idx))).any (· == value)) with
  | some idx => .ok (q.closeGap idx).shrinkIfSparse
  | none => .error (.raised "ValueError: Given element is not in deque")

def reverse : Deque α :=
  let last := q.head + q.len - 1
  { q with
    data := swaps q.data (fun i => q.physicalIndex (q.head + i)) (fun i => q.physicalIndex (last - i))
      (q.len / 2).toNat }

/-- One round of `rotate` to the left. -/
def rotateLeft : Deque α :=
  { q with
    data := RingBuffer.move q.data q.head q.tail
    tail := q.physicalIndex (q.tail + 1)
    head := q.physicalIndex (q.head + 1) }

/-- One round of `rotate` to the right. -/
def rotateRight : Deque α :=
  let tail := q.physicalIndex (q.tail - 1)
  let head := q.physicalIndex (q.head - 1)
  { q with data := RingBuffer.move q.data tail head, tail := tail, head := head }

def rotate (n : ℤ) : Deque α :=
  if n < 0 then rotateLeft^[(wrap (-n)).toNat] q else rotateRight^[n.toNat] q

/-! ### Reading -/

/-- `__getitem__`. -/
def getitem (idx : ℤ) : Except Fault (Option α) :=
  if 0 ≤ idx ∧ idx < q.len then .ok (q.data (q.physicalIndex (q.head + idx)))
  else .error .aborted

/-- What `for element in deque` visits. -/
def forward : List (Option α) :=
  (List.range q.len.toNat).map (fun index : ℕ => q.data (q.physicalIndex (q.head + index)))

/-- What `for element in reversed(deque)` visits. -/
def backward : List (Option α) :=
  (List.range q.len.toNat).map (fun t : ℕ => q.data (q.physicalIndex (q.head + (q.len - 1 - t))))

/-! ### Concatenation and repetition -/

/-- `for element in other: self.append(element.copy())`. -/
def appendAll (q other : Deque α) : Deque α :=
  other.forward.reduceOption.foldl append q

/-- `__iadd__`. -/
def iadd (q other : Deque α) : Deque α :=
  q.appendAll other

/-- `__imul__`. -/
def imul (n : ℤ) : Deque α :=
  if n ≤ 0 then q.clear else (appendAll · q.copy)^[(n - 1).toNat] q

end Deque
