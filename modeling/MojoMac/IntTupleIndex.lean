/-
Coordinates and indices, sorting, and strides in a given order (`layout/int_tuple.mojo`).

* `IntTuple.product`, `IntTuple.prefixProduct` — sizes and column-major strides;
* `IntTuple.idx2crd` — the coordinate of an index, by dividing by a stride and reducing by
  an extent;
* `IntTuple.crd2idx` — the index of a coordinate, with its shortcuts for one and for two
  dimensions;
* `IntTuple.sorted` — merge sort;
* `IntTuple.sortedPerm` — insertion sort that keeps track of the positions;
* `IntTuple.toNest` — nesting a flat tuple; how many integers a sub-tuple gets is computed
  from `depth`;
* `IntTuple.compactOrder` — sorts the flattened order, takes the column-major strides of the shape
  in that order, puts them back into their places and nests them like the shape.

Division rounds down, and dividing by zero gives zero.  A recursive function gets one turn
for each word of the tuple it goes through.
-/
import MojoMac.IntTuple

/-! ### Integers -/

/-- The operator `//`. -/
def floordiv (a b : ℤ) : ℤ :=
  if b = 0 then 0 else Int.fdiv a b

/-- The operator `%`. -/
def floormod (a b : ℤ) : ℤ :=
  if b = 0 then 0 else Int.fmod a b

/-- The function `ceildiv`. -/
def ceildiv (a b : ℤ) : ℤ :=
  -floordiv (-a) b

theorem floordiv_of_pos {a b : ℤ} (hb : 0 < b) : floordiv a b = a / b := by
  rw [floordiv, if_neg hb.ne', Int.fdiv_eq_ediv_of_nonneg a hb.le]

theorem floormod_of_pos {a b : ℤ} (hb : 0 < b) : floormod a b = a % b := by
  rw [floormod, if_neg hb.ne', Int.fmod_eq_emod_of_nonneg a hb.le]

namespace IntTuple

/-! ### Products -/

/-- The product of all integers; unknown when a factor on the way is. -/
def product : ℕ → IntTuple → Option ℤ
  | 0, _ => none
  | fuel + 1, t => do
    if ← t.isValue then
      t.toInt
    else
      (← t.elems).foldlM (fun a b => do
        if a = unknownValue then
          some unknownValue
        else if ← b.isValue then
          return a * (← b.toInt)
        else
          return a * (← product fuel b)) 1

/-- The triples a loop over three zipped tuples goes through. -/
def zip3 (a b c : IntTuple) : Option (List (IntTuple × IntTuple × IntTuple)) := do
  (List.range (min (← a.len) (min (← b.len) (← c.len)))).mapM fun i => do
    return (← a.get i, ← b.get i, ← c.get i)

/-- The tuple of the results for each element of a zipped list. -/
def collect {α : Type} (xs : List α) (func : α → Option IntTuple) : Option IntTuple :=
  xs.foldlM (fun r x => do r.append [← func x]) empty

def prefixProduct2 : ℕ → IntTuple → IntTuple → Option IntTuple
  | 0, _, _ => none
  | fuel + 1, a, init => do
    if ← a.isValue then
      if ← init.isValue then init.ownedCopy else return empty
    else if ← init.isValue then
      let (r, _) ← (← a.elems).foldlM (fun (r, vInit) v => do
        let r ← IntTuple.append r [← prefixProduct2 fuel v (ofInt vInit)]
        let unknown ← if ← v.isValue then (return (← v.toInt) == unknownValue) else some false
        if unknown || vInit == unknownValue then
          return (r, unknownValue)
        else
          return (r, vInit * (← product v.size v))) (empty, ← init.toInt)
      return r
    else
      collect (← a.zip init) fun z => prefixProduct2 fuel z.1 z.2

def prefixProduct (a : IntTuple) (init : ℤ) : Option IntTuple := do
  if (← a.len) = 0 then
    return empty
  if ← a.isValue then
    return ofInt init
  prefixProduct2 a.size a (ofInt init)

/-! ### Indices -/

/-- The strides that `idx2crd2` and `crd2idx` work with: those given, or column-major ones
when there are none. -/
def resolveStride (shape stride : IntTuple) : Option IntTuple := do
  if (← stride.len) = 0 then prefixProduct shape 1 else stride.ownedCopy

def idx2crd2 : ℕ → IntTuple → IntTuple → IntTuple → Option IntTuple
  | 0, _, _, _ => none
  | fuel + 1, idx, shape, stride => do
    let stride ← resolveStride shape stride
    if ← idx.isValue then
      if ← shape.isValue then
        let i ← idx.toInt
        let st ← stride.toInt
        let s ← shape.toInt
        if i = unknownValue ∨ st = unknownValue ∨ s = unknownValue then
          return ofInt unknownValue
        else
          return ofInt (floormod (floordiv i st) s)
      else
        collect (← shape.zip stride) fun z => idx2crd2 fuel idx z.1 z.2
    else if ← shape.isValue then
      none
    else
      collect (← idx.zip3 shape stride) fun z => idx2crd2 fuel z.1 z.2.1 z.2.2

/-- The overload of `idx2crd` with strides. -/
def idx2crd (idx shape stride : IntTuple) : Option IntTuple :=
  idx2crd2 shape.size idx shape stride

/-- The shortcuts of `crd2idx` for the single integer `c`; the inner `none` when none of them
applies.  A test `len(t) == 1 and t.is_value(0)` is `isValue`. -/
def crd2idxShortcut (rec : IntTuple → IntTuple → IntTuple → Option ℤ) (c : ℤ)
    (shape stride : IntTuple) : Option (Option ℤ) := do
  if ← shape.isValue then
    -- one dimension
    if c = unknownValue ∨ (← shape.valueAt 0) = unknownValue then
      return some unknownValue
    if (← stride.len) = 0 then
      return some c
    if ← stride.isValue then
      let st ← stride.valueAt 0
      return some (if st = unknownValue then unknownValue else c * st)
    return none
  if (← shape.len) = 2 ∧ (← stride.len) = 2 then
    if c = unknownValue then
      return some unknownValue
    if (← shape.isValueAt 0) && (← shape.isValueAt 1) && (← stride.isValueAt 0) &&
        (← stride.isValueAt 1) then
      -- two dimensions without nesting
      let s0 ← shape.valueAt 0
      let s1 ← shape.valueAt 1
      let st0 ← stride.valueAt 0
      let st1 ← stride.valueAt 1
      if s0 = unknownValue ∨ s1 = unknownValue ∨ st0 = unknownValue ∨ st1 = unknownValue then
        return some unknownValue
      return some (floormod c s0 * st0 + floormod (floordiv c s0) s1 * st1)
    -- two dimensions, nested
    let s0 ← product shape.size (← shape.get 0)
    if s0 = unknownValue then
      return some unknownValue
    if (← stride.isValueAt 0) && (← stride.isValueAt 1) then
      let st0 ← stride.valueAt 0
      let st1 ← stride.valueAt 1
      if st0 = unknownValue ∨ st1 = unknownValue then
        return some unknownValue
      return some (floormod c s0 * st0 + floordiv c s0 * st1)
    let r0 ← rec (ofInt (floormod c s0)) (← shape.get 0) (← stride.get 0)
    let r1 ← rec (ofInt (floordiv c s0)) (← shape.get 1) (← stride.get 1)
    return some (r0 + r1)
  return none

/-- The rest of `crd2idx`, for all other cases. -/
def crd2idxGeneral (rec : IntTuple → IntTuple → IntTuple → Option ℤ)
    (crd shape stride : IntTuple) : Option ℤ := do
  let stride ← resolveStride shape stride
  if ← crd.isValue then
    let intCrd ← crd.toInt
    if ← shape.isValue then
      return intCrd * (← stride.toInt)
    if (← shape.len) = 0 then
      return 0
    let (intCrd, result) ← (List.range ((← shape.len) - 1)).foldlM (fun (intCrd, result) i => do
      let p ← product shape.size (← shape.get i)
      let r ← rec (ofInt (floormod intCrd p)) (← shape.get i) (← stride.get i)
      return (floordiv intCrd p, result + r)) (intCrd, 0)
    let r ← rec (ofInt intCrd) (← shape.get ((← shape.len) - 1)) (← stride.get ((← stride.len) - 1))
    return result + r
  if ← shape.isValue then
    return 0
  (← crd.zip3 shape stride).foldlM (fun r z => do return r + (← rec z.1 z.2.1 z.2.2)) 0

def crd2idx : ℕ → IntTuple → IntTuple → IntTuple → Option ℤ
  | 0, _, _, _ => none
  | fuel + 1, crd, shape, stride => do
    if ← crd.isValue then
      if let some r ← crd2idxShortcut (crd2idx fuel) (← crd.valueAt 0) shape stride then
        return r
    crd2idxGeneral (crd2idx fuel) crd shape stride

/-- The constructor from a zip iterator. -/
def ofZip (pairs : List (IntTuple × IntTuple)) : Option IntTuple :=
  collect pairs fun z => do
    let tup ← empty.append [z.1]
    tup.append [z.2]

/-! ### Sorting -/

/-- The loop of `_merge`, from the positions `i` and `j` on. -/
def mergeFrom (cmp : IntTuple → IntTuple → Option Bool) (left right : IntTuple) :
    ℕ → ℕ → ℕ → IntTuple → Option (IntTuple × ℕ × ℕ)
  | 0, i, j, result => some (result, i, j)
  | fuel + 1, i, j, result => do
    if i < (← left.len) ∧ j < (← right.len) then
      if ← cmp (← left.get i) (← right.get j) then
        mergeFrom cmp left right fuel (i + 1) j (← result.append [← left.get i])
      else
        mergeFrom cmp left right fuel i (j + 1) (← result.append [← right.get j])
    else
      return (result, i, j)

def merge (cmp : IntTuple → IntTuple → Option Bool) (left right : IntTuple) : Option IntTuple := do
  let (result, i, j) ← mergeFrom cmp left right ((← left.len) + (← right.len)) 0 0 empty
  let result ← result.extend (← left.slice ⟨some i, none, none⟩)
  result.extend (← right.slice ⟨some j, none, none⟩)

def sorted (cmp : IntTuple → IntTuple → Option Bool) : ℕ → IntTuple → Option IntTuple
  | 0, _ => none
  | fuel + 1, tuple => do
    if (← tuple.len) ≤ 1 then
      tuple.ownedCopy
    else
      let mid := (← tuple.len) / 2
      merge cmp (← sorted cmp fuel (← tuple.slice ⟨none, some mid, none⟩))
        (← sorted cmp fuel (← tuple.slice ⟨some mid, none, none⟩))

/-! ### Orders -/

def depth : ℕ → IntTuple → Option ℕ
  | 0, _ => none
  | fuel + 1, src => do
    if ← src.isValue then
      return 0
    else
      (← src.elems).foldlM (fun res elem => do return res + (← depth fuel elem)) 1

/-- One turn of the loop of `to_nest`: the result so far, and `flat_idx`. -/
def toNestStep (rec : IntTuple → IntTuple → Option IntTuple) (nested flat : IntTuple)
    (r : IntTuple × ℕ) (i : ℕ) : Option (IntTuple × ℕ) := do
  let (result, flatIdx) := r
  let sub ← nested.get i
  if ← sub.isValue then
    return (← result.append [← flat.get flatIdx], flatIdx + 1)
  else
    let subSize := (← depth sub.size sub) + 1
    let part ← flat.slice ⟨some flatIdx, some (flatIdx + subSize : ℕ), none⟩
    return (← result.append [← rec sub part], flatIdx + subSize)

def toNest : ℕ → IntTuple → IntTuple → Option IntTuple
  | 0, _, _ => none
  | fuel + 1, nested, flat => do
    let (result, _) ← (List.range (← nested.len)).foldlM
      (toNestStep (toNest fuel) nested flat) (empty, 0)
    return result

/-- The inner loop of `_sorted_perm`: larger values move up, from position `j` down; also where
the loop stops. -/
def moveUp (keyVal : ℤ) : ℕ → IntTuple → List ℕ → Option (ℕ × IntTuple × List ℕ)
  | 0, values, indices => some (0, values, indices)
  | j + 1, values, indices => do
    let v ← (← values.get j).toInt
    if keyVal < v then
      moveUp keyVal j (← values.replaceEntryInt (j + 1) v) (indices.set (j + 1) (← indices[j]?))
    else
      return (j + 1, values, indices)

/-- One turn of the outer loop of `_sorted_perm`. -/
def sortedPermStep (r : IntTuple × List ℕ) (i : ℕ) : Option (IntTuple × List ℕ) := do
  let (values, indices) := r
  let keyVal ← (← values.get i).toInt
  let keyIdx ← indices[i]?
  let (j, values, indices) ← moveUp keyVal i values indices
  return (← values.replaceEntryInt j keyVal, indices.set j keyIdx)

def sortedPerm (tuple : IntTuple) : Option (List ℕ) := do
  let n ← tuple.len
  let (_, indices) ← (List.range' 1 (n - 1)).foldlM sortedPermStep (tuple, List.range n)
  return indices

def flatApplyPerm (tuple : IntTuple) (perm : List ℕ) : Option IntTuple := do
  (List.range (← tuple.len)).foldlM (fun (result : IntTuple) i => do
    result.append [← tuple.get (← perm[i]?)]) empty

def flatApplyInvperm (tuple : IntTuple) (perm : List ℕ) : Option IntTuple := do
  let n ← tuple.len
  (List.range n).foldlM (fun (result : IntTuple) i => do
    result.replaceEntryInt (← perm[i]?) (← (← tuple.get i).toInt)) (numElems n)

def flatCompactOrder (shape order : IntTuple) : Option IntTuple := do
  let perm ← sortedPerm order
  let strides ← prefixProduct (← flatApplyPerm shape perm) 1
  flatApplyInvperm strides perm

def compactOrder (shape order : IntTuple) : Option IntTuple := do
  toNest shape.size shape (← flatCompactOrder (← shape.flatten) (← order.flatten))

end IntTuple
