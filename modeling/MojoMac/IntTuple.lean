/-
Nested integer tuples in one flat store (`layout/int_tuple.mojo`).

The first word of a store is the number of elements and the next words are their slots.
A slot at least `minimumValue` is the element itself; a smaller one is an offset from the
slot to a sub-tuple further on in the same store.

Results are in `Option`: `none` stands for an abort, for a read or a write outside of a
store and for a read of a word that was never written.  A recursive function gets one
turn for each word of the store it starts from: sub-tuples are copies with fewer words.
An `Int` is an integer, without overflow.

* `IntTuple.append`, `IntTuple.extend` — elements are stored behind the old ones;
* `IntTuple.calculateTupleSize` — the extent of a sub-tuple, from its structure;
* `IntTuple.get`, `IntTuple.slice` — sub-tuples are copied out;
* `IntTuple.replaceEntry`, `IntTuple.replaceEntryInt` — by copy, and in place.
-/
import Mathlib

theorem some_bind {α β : Type} (a : α) (f : α → Option β) : (some a >>= f) = f a := rfl

/-! ### Arrays -/

/-- Words of memory; `none` is a word that was allocated and not written yet. -/
abbrev IntArray := List (Option ℤ)

namespace IntArray

def init (size : ℕ) : IntArray :=
  List.replicate size none

def getitem (a : IntArray) (idx : ℕ) : Option ℤ :=
  a[idx]?.join

def setitem (a : IntArray) (idx : ℕ) (value : ℤ) : Option IntArray :=
  if idx < a.length then some (a.set idx (some value)) else none

def copyFrom (a : IntArray) (dstOffset : ℕ) (source : IntArray) (srcOffset size : ℕ) :
    Option IntArray :=
  if srcOffset + size ≤ source.length ∧ dstOffset + size ≤ a.length then
    some (a.take dstOffset ++ (source.drop srcOffset).take size ++ a.drop (dstOffset + size))
  else
    none

end IntArray

open IntArray

/-! ### Reading -/

structure IntTuple where
  store : IntArray
  deriving DecidableEq

namespace IntTuple

variable (t : IntTuple)

def minimumValue : ℤ := -0xFFFE

def unknownValue : ℤ := -1

def size : ℕ :=
  t.store.length

/-- The `__len__` method. -/
def len : Option ℕ :=
  (t.store.getitem 0).map Int.toNat

def value : Option ℤ :=
  t.store.getitem 1

def isValue : Option Bool := do
  if (← t.len) = 1 then
    some (decide (minimumValue ≤ (← t.value)))
  else
    some false

/-- The overload of `is_value` for one element. -/
def isValueAt (i : ℕ) : Option Bool :=
  (t.store.getitem (i + 1)).map fun val => decide (minimumValue ≤ val)

/-- Where the slot at `pos`, which holds `val`, points to. -/
def subOffset (pos : ℕ) (val : ℤ) : ℤ :=
  pos - (val - minimumValue)

/-- The overload of `value` for one element. -/
def valueAt (i : ℕ) : Option ℤ := do
  let val ← t.store.getitem (i + 1)
  if minimumValue ≤ val then
    some val
  else
    t.store.getitem ((subOffset (i + 1) val).toNat + 1)

/-- The `__int__` method, which aborts on tuples. -/
def toInt : Option ℤ := do
  if ← t.isValue then t.value else none

def calculateTupleSize : ℕ → IntArray → ℕ → Option ℤ
  | 0, _, _ => none
  | fuel + 1, data, offset => do
    let len ← data.getitem offset
    (List.range len.toNat).foldlM (fun size i => do
      let val ← data.getitem (offset + i + 1)
      if val < minimumValue then
        let sub := subOffset (offset + i + 1) val
        if sub < 0 ∨ (data.length : ℤ) ≤ sub then
          some size
        else
          return size + (← calculateTupleSize fuel data sub.toNat)
      else
        some size) (1 + len)

/-- The constructor from one integer. -/
def ofInt (value : ℤ) : IntTuple :=
  ⟨[some 1, some value]⟩

def uncheckedGet (idx : ℕ) : Option IntTuple := do
  let val ← t.store.getitem (idx + 1)
  if minimumValue ≤ val then
    some (ofInt val)
  else
    let offset := (subOffset (idx + 1) val).toNat
    let subSize := (← calculateTupleSize t.size t.store offset).toNat
    return ⟨← (init subSize).copyFrom 0 t.store offset subSize⟩

/-- The `__getitem__` method, with its bounds check. -/
def get (idx : ℕ) : Option IntTuple := do
  if idx < (← t.len) then t.uncheckedGet idx else none

/-- The elements a loop over the tuple goes through. -/
def elems : Option (List IntTuple) := do
  (List.range (← t.len)).mapM t.get

/-- The pairs a loop over two zipped tuples goes through. -/
def zip (a b : IntTuple) : Option (List (IntTuple × IntTuple)) := do
  (List.range (min (← a.len) (← b.len))).mapM fun i => do
    return (← a.get i, ← b.get i)

/-! ### Building -/

/-- The empty tuple. -/
def empty : IntTuple :=
  ⟨[some 0]⟩

/-- The constructor from integers. -/
def ofInts (elements : List ℤ) : IntTuple :=
  ⟨some (elements.length : ℤ) :: elements.map some⟩

/-- The constructor that leaves its elements unwritten. -/
def numElems (n : ℕ) : IntTuple :=
  ⟨some (n : ℤ) :: init n⟩

variable (elements : List IntTuple)

def elementsSize : ℕ :=
  (elements.map fun v => v.size + 1).sum

def insert (store : IntArray) (idx storage : ℕ) (element : IntTuple) :
    Option (IntArray × ℕ) := do
  let store ← store.setitem (idx + 1) ((idx : ℤ) + 1 - storage + minimumValue)
  let store ← store.copyFrom storage element.store 0 element.size
  return (store, storage + element.size)

/-- The loop that inserts one element after the other. -/
def insertAll (store : IntArray) (idx storage : ℕ) : List IntTuple → Option (IntArray × ℕ)
  | [] => some (store, storage)
  | element :: elements => do
    let (store, storage) ← insert store idx storage element
    insertAll store (idx + 1) storage elements

/-- The constructor from tuples. -/
def ofTuples : Option IntTuple := do
  let store ← (init (elementsSize elements + 1)).setitem 0 elements.length
  let (store, _) ← insertAll store 0 (elements.length + 1) elements
  return ⟨store⟩

def append : Option IntTuple := do
  if elements.length = 0 then
    return t
  let oldLen ← t.len
  let newLen := oldLen + elements.length
  let store ← (init (t.size + elementsSize elements)).setitem 0 newLen
  -- the offsets of the old elements grow by the number of new slots
  let store ← (List.range oldLen).foldlM (fun (store : IntArray) i => do
    let val ← t.store.getitem (i + 1)
    store.setitem (i + 1) (if minimumValue ≤ val then val else val - elements.length)) store
  let oldDataSize := t.size - oldLen - 1
  let store ← store.copyFrom (newLen + 1) t.store (oldLen + 1) oldDataSize
  let (store, _) ← insertAll store oldLen (newLen + 1 + oldDataSize) elements
  return ⟨store⟩

/-- One of the two loops of `extend`: the elements of `tuple` go to the slots from `base`. -/
def extendFrom (tuple : IntTuple) (base : ℕ) (store : IntArray) (storage : ℕ) :
    Option (IntArray × ℕ) := do
  (List.range (← tuple.len)).foldlM (fun (store, storage) i => do
    if ← tuple.isValueAt i then
      return (← store.setitem (base + i + 1) (← tuple.valueAt i), storage)
    else
      insert store (base + i) storage (← tuple.get i)) (store, storage)

def extend (t tuple : IntTuple) : Option IntTuple := do
  if (← tuple.len) = 0 then
    return t
  let oldLen ← t.len
  let newLen := oldLen + (← tuple.len)
  let store ← (init (t.size + tuple.size - 1)).setitem 0 newLen
  let (store, storage) ← t.extendFrom 0 store (newLen + 1)
  let (store, _) ← tuple.extendFrom oldLen store storage
  return ⟨store⟩

def ownedCopy : Option IntTuple := do
  return ⟨← (init t.size).copyFrom 0 t.store 0 t.size⟩

/-- The overload of `replace_entry` that makes a new tuple. -/
def replaceEntry (idx : ℕ) (value : IntTuple) : Option IntTuple := do
  (List.range (← t.len)).foldlM (fun (result : IntTuple) i => do
    if i ≠ idx then result.append [← t.get i] else result.append [value]) empty

/-- The overload of `replace_entry` that writes an integer in place. -/
def replaceEntryInt (idx : ℕ) (intValue : ℤ) : Option IntTuple := do
  return ⟨← t.store.setitem (idx + 1) intValue⟩

/-! ### Slices -/

end IntTuple

structure Slice where
  start : Option ℤ
  stop : Option ℤ
  step : Option ℤ

namespace Slice

/-- A given bound of `Slice.indices`, moved into the container. -/
def clamp (length : ℤ) (positiveStep : Bool) (bound : ℤ) : ℤ :=
  if bound < 0 then
    if bound + length < 0 then if positiveStep then 0 else -1 else bound + length
  else if length ≤ bound then
    if positiveStep then length else length - 1
  else
    bound

def indices (span : Slice) (length : ℤ) : ℤ × ℤ × ℤ :=
  let step := span.step.getD 1
  let positiveStep := decide (0 < step)
  let start := match span.start with
    | none => if positiveStep then 0 else length - 1
    | some start => clamp length positiveStep start
  let stop := match span.stop with
    | none => if positiveStep then length else -1
    | some stop => clamp length positiveStep stop
  (start, stop, step)

/-- The numbers of a strided range; a zero step gives none. -/
def range : ℕ → ℤ → ℤ → ℤ → List ℤ
  | 0, _, _, _ => []
  | fuel + 1, start, stop, step =>
    if 0 < step ∧ start < stop ∨ step < 0 ∧ stop < start then
      start :: range fuel (start + step) stop step
    else
      []

/-- The positions of a container of the given length that a slice goes through. -/
def positions (span : Slice) (length : ℕ) : List ℕ :=
  let (start, stop, step) := span.indices length
  (range (stop - start).natAbs start stop step).map Int.toNat

end Slice

namespace IntTuple

/-- The overload of `__getitem__` for slices. -/
def slice (t : IntTuple) (span : Slice) : Option IntTuple := do
  ofTuples (← (span.positions (← t.len)).mapM t.get)

/-! ### Flattening and comparing -/

def countValues : ℕ → IntTuple → Option ℕ
  | 0, _ => none
  | fuel + 1, t => do
    (List.range (← t.len)).foldlM (fun count i => do
      if ← t.isValueAt i then return count + 1
      else return count + (← countValues fuel (← t.get i))) 0

def fill : ℕ → IntArray → IntTuple → ℕ → Option (IntArray × ℕ)
  | 0, _, _, _ => none
  | fuel + 1, store, src, i => do
    (List.range (← src.len)).foldlM (fun (store, i) j => do
      if ← src.isValueAt j then return (← store.setitem i (← src.valueAt j), i + 1)
      else fill fuel store (← src.get j) i) (store, i)

def flatten (t : IntTuple) : Option IntTuple := do
  if (← t.len) = 0 then
    return t
  if ← t.isValue then
    return t
  let result := numElems (← countValues t.size t)
  let (store, _) ← fill t.size result.store t 1
  return ⟨store⟩

def isEqual : ℕ → IntTuple → IntTuple → Option Bool
  | 0, _, _ => none
  | fuel + 1, a, b => do
    if (← a.len) ≠ (← b.len) then
      return false
    (List.range (← a.len)).allM fun i => do
      if ← a.isValueAt i then
        if ← b.isValueAt i then
          return decide ((← a.valueAt i) = (← b.valueAt i))
        else if (← (← b.get i).len) = 1 then
          return decide ((← a.valueAt i) = (← (← b.get i).value))
        else
          return false
      else if !(← b.isValueAt i) then
        isEqual fuel (← a.get i) (← b.get i)
      else if (← (← a.get i).len) = 1 then
        return decide ((← (← a.get i).value) = (← b.valueAt i))
      -- the last test is on `b` whichever side the tuple is on
      else if (← (← b.get i).len) = 1 then
        return decide ((← a.valueAt i) = (← (← b.get i).value))
      else
        return false

/-- The `__eq__` method. -/
def eq (a b : IntTuple) : Option Bool :=
  isEqual a.size a b

/-- The `__lt__` method. -/
def lt (a b : IntTuple) : Option Bool := do
  go (← a.zip b)
where
  go : List (IntTuple × IntTuple) → Option Bool
    | [] => some false
    | z :: zs => do
      let z0 ← z.1.toInt
      let z1 ← z.2.toInt
      if z0 = z1 then go zs
      else return decide (z0 < z1)

end IntTuple
