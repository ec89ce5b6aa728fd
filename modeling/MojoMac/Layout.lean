/-
Layouts (`layout/layout.mojo`): a shape with strides, and the algebra on them.

* `Layout.call`, `Layout.idx2crd` — from coordinates to offsets and back;
* `Layout.coalesce` — merges neighbouring modes that continue each other;
* `Layout.complement` — a layout of the offsets that are left over.

Shape and strides are flat stores, so each function here works on words; `none` stands for an
abort and for a read outside of a store.
-/
import MojoMac.IntTupleIndex

open IntTuple

structure Layout where
  shape : IntTuple
  stride : IntTuple
deriving DecidableEq

namespace Layout

variable (l : Layout)

/-- The constructor from a shape and strides; empty strides mean column-major ones. -/
def init (shape stride : IntTuple) : Option Layout := do
  let shape ← shape.ownedCopy
  return ⟨shape, ← resolveStride shape stride⟩

def makeOrderedLayout (shape order : IntTuple) : Option Layout := do
  init shape (← compactOrder shape order)

/-- The `__call__` method. -/
def call (idx : IntTuple) : Option ℤ :=
  crd2idx l.shape.size idx l.shape l.stride

def idx2crd (idx : IntTuple) : Option IntTuple :=
  IntTuple.idx2crd idx l.shape l.stride

def size : Option ℤ :=
  product l.shape.size l.shape

/-- The `__len__` method. -/
def len : Option ℕ :=
  l.shape.len

/-- The `__getitem__` method. -/
def getitem (index : ℕ) : Option Layout := do
  init (← l.shape.get index) (← l.stride.get index)

/-- The sub-layouts a loop over the layout goes through. -/
def iter : Option (List Layout) := do
  (List.range (← l.len)).mapM l.getitem

/-! ### Coalescing -/

/-- One turn of the loop of `coalesce`. -/
def coalesceStep (result z : IntTuple × IntTuple) : Option (IntTuple × IntTuple) := do
  let (resultShape, resultStride) := result
  let shape ← z.1.toInt
  let stride ← z.2.toInt
  let lastShape := (← resultShape.len) - 1
  let lastStride := (← resultStride.len) - 1
  -- skip their shape-1s
  if shape = 1 then
    return result
  -- replace our shape-1 with anything
  if ← (← resultShape.get lastShape).eq (ofInt 1) then
    return (← resultShape.replaceEntryInt lastShape shape,
      ← resultStride.replaceEntryInt lastStride stride)
  -- merge modes if the shape*stride match and computable
  let shape' ← (← resultShape.get lastShape).toInt
  let stride' ← (← resultStride.get lastStride).toInt
  if shape' * stride' = stride ∧ unknownValue ∉ [shape, stride, shape', stride'] then
    return (← resultShape.replaceEntryInt lastShape (shape' * shape), resultStride)
  -- append a new mode
  return (← resultShape.append [ofInt shape], ← resultStride.append [ofInt stride])

/-- The function `coalesce` without `keep_rank`. -/
def coalesceFlat : Option Layout := do
  let zs ← (← l.shape.flatten).zip (← l.stride.flatten)
  let (resultShape, resultStride) ← zs.foldlM coalesceStep (ofInt 1, ofInt 0)
  if (← resultShape.len) = 1 then
    init (← resultShape.get 0) (← resultStride.get 0)
  else
    init resultShape resultStride

def coalesce (keepRank : Bool) : Option Layout := do
  if keepRank then
    if (← l.len) = 1 then
      let mode ← coalesceFlat (← l.getitem 0)
      init mode.shape mode.stride
    else
      let (shapes, strides) ← (← l.iter).foldlM (fun (shapes, strides) mode => do
        let coalescedMode ← coalesceFlat mode
        return (← IntTuple.append shapes [coalescedMode.shape],
          ← IntTuple.append strides [coalescedMode.stride])) (IntTuple.empty, IntTuple.empty)
      init shapes strides
  else
    coalesceFlat l

/-! ### Complement -/

/-- One turn of the loop of `complement`: the entries written so far, their number, and
`current_idx`. -/
def complementStep (r : IntTuple × IntTuple × ℕ × ℤ) (z : IntTuple) :
    Option (IntTuple × IntTuple × ℕ × ℤ) := do
  let (resultShape, resultStride, i, currentIdx) := r
  let stride ← (← z.get 0).toInt
  let shape ← (← z.get 1).toInt
  if unknownValue ∈ [shape, stride] ∨ stride = 0 ∨ shape = 1 then
    return r
  if ¬ currentIdx ≤ shape * stride then
    none
  else
    return (← resultShape.replaceEntryInt i (floordiv stride currentIdx),
      ← resultStride.replaceEntryInt i currentIdx, i + 1, shape * stride)

/-- The assignment `_store[0] = i`. -/
def setLen (t : IntTuple) (i : ℕ) : Option IntTuple := do
  return ⟨← t.store.setitem 0 i⟩

def complement (size : ℤ) : Option Layout := do
  let pairs ← ofZip (← (← l.stride.flatten).zip (← l.shape.flatten))
  let sorted ← sorted IntTuple.lt pairs.size pairs
  let sortedLen ← sorted.len
  let (resultShape, resultStride, i, currentIdx) ← (← sorted.elems).foldlM complementStep
    (numElems (sortedLen + 1), numElems (sortedLen + 1), 0, 1)
  let resultShape ← resultShape.replaceEntryInt i
    (if size = unknownValue then unknownValue else ceildiv size currentIdx)
  let resultStride ← resultStride.replaceEntryInt i currentIdx
  coalesce (← init (← setLen resultShape (i + 1)) (← setLen resultStride (i + 1))) false

/-! ### Right inverse -/

/-- The inner loop of `right_inverse`: the first mode whose stride is `nextStride`. -/
def findStride (l : Layout) (nextStride : ℤ) : List ℕ → Option (Option ℕ)
  | [] => some none
  | j :: js => do
    if (← (← l.stride.get j).toInt) = nextStride then
      return some j
    else
      findStride l nextStride js

/-- One turn of the outer loop of `right_inverse`. -/
def rightInverseStep (flatLayout : Layout) (rstride : IntTuple)
    (r : IntTuple × IntTuple × ℤ) : Option (IntTuple × IntTuple × ℤ) := do
  let (shape, stride, nextStride) := r
  match ← findStride flatLayout nextStride (List.range (← flatLayout.len)) with
  | none => return r
  | some j =>
    let shapeJ ← flatLayout.shape.get j
    return (← shape.append [shapeJ], ← stride.append [← rstride.get j],
      nextStride * (← shapeJ.toInt))

def rightInverse : Option Layout := do
  let flatLayout ← coalesce l false
  let rstride ← prefixProduct flatLayout.shape 1
  let (shape, stride, _) ← (List.range (← flatLayout.len)).foldlM
    (fun r _ => rightInverseStep flatLayout rstride r) (IntTuple.empty, IntTuple.empty, 1)
  init shape stride

end Layout
