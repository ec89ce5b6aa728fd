/-
The interval tree of the standard library (`collections/interval.mojo`).

A red-black tree of half-open intervals ordered by their start, in which every node
keeps a bound `maxEnd` on the ends below it.  Nodes live in a heap and point to their
children and their parent; a step that follows an absent pointer is `none`.  The
`while` loops take fuel, and `none` also says that it ran out.

The two rotations and the two branches of the fix-up loop are mirror images: they are
written once, for a side.  The rotations differ in one place: `rightRotate` leaves the
right child out when it recomputes the bound of the node that moved up.

* `IntervalTree.insert` — descent, linking and `insertFixup`;
* `IntervalTree.search` — the work-list search with its two pruning tests.
-/
import MojoMac.PointerTree

open PointerTree

namespace IntervalTree

/-- A half-open interval; `stop` is the source's `end`. -/
structure Interval (T : Type) where
  start : T
  stop : T
deriving DecidableEq, Repr

section interval

variable {T : Type} [LinearOrder T]

def Interval.overlaps (self other : Interval T) : Bool :=
  other.start < self.stop && self.start < other.stop

/-- `__lt__` of intervals, and of nodes: by the start only. -/
def Interval.lt (self other : Interval T) : Bool :=
  self.start < other.start

end interval

/-- The fields of a node other than its pointers. -/
structure NodeData (T U : Type) where
  interval : Interval T
  data : U
  maxEnd : T
  isRed : Bool
deriving DecidableEq, Repr

abbrev IntervalNode (T U : Type) := Cell (NodeData T U)

namespace NodeData

variable {T U : Type}

def setMaxEnd (m : T) (v : NodeData T U) : NodeData T U :=
  { v with maxEnd := m }

def paint (red : Bool) (v : NodeData T U) : NodeData T U :=
  { v with isRed := red }

/-- The bound of a node on the path of an insertion. -/
def raise [LinearOrder T] (e : T) (v : NodeData T U) : NodeData T U :=
  { v with maxEnd := max v.maxEnd e }

end NodeData

end IntervalTree

open IntervalTree (NodeData) in
/-- The tree, with the heap of its nodes. -/
structure IntervalTree (T U : Type) where
  heap : Heap (NodeData T U)
  root : Option ℕ
  len : ℕ

namespace IntervalTree

variable {T U : Type} [LinearOrder T] (h : Heap (NodeData T U)) (t : IntervalTree T U)

def empty : IntervalTree T U :=
  { heap := ⟨[]⟩, root := none, len := 0 }

/-! ### Rotations -/

/-- `y` takes the place of `x` below `parent`, or as the root. -/
def relink (s : Side) (t : IntervalTree T U) (parent : Option ℕ) (x y : ℕ) :
    Option (IntervalTree T U) :=
  match parent with
  | none => some { t with root := some y }
  | some p => do
    let np ← t.heap p
    let side := if np.child s = some x then s else s.other
    return { t with heap := t.heap.modify p (·.setChild side (some y)) }

/-- The pointer part of a rotation of `x` towards side `s`, with the node that moves up. -/
def rotatePointers (s : Side) (t : IntervalTree T U) (x : ℕ) :
    Option (IntervalTree T U × ℕ) := do
  let nx ← t.heap x
  let y ← nx.child s.other
  let ny ← t.heap y
  let h := t.heap.modify x (·.setChild s.other (ny.child s))
  let h := h.setParentOf (ny.child s) (some x)
  let h := h.modify y (·.setParent nx.parent)
  let t ← relink s { t with heap := h } nx.parent x y
  let h := t.heap.modify y (·.setChild s (some x))
  let h := h.modify x (·.setParent (some y))
  return ({ t with heap := h }, y)

/-- `max` of a bound with the bound of a child, if there is one. -/
def maxWithChild (m : T) : Option ℕ → Option T
  | none => some m
  | some a => (h a).map (fun n => max m n.value.maxEnd)

/-- The bound of a node from its own end and both children. -/
def refreshMaxEnd (a : ℕ) : Option (Heap (NodeData T U)) := do
  let n ← h a
  let m ← maxWithChild h n.value.interval.stop n.left
  let m ← maxWithChild h m n.right
  return h.modify a (·.mapValue (·.setMaxEnd m))

/-- The bound of a node from its own end and the left child only. -/
def refreshMaxEndLeft (a : ℕ) : Option (Heap (NodeData T U)) := do
  let n ← h a
  let m ← maxWithChild h n.value.interval.stop n.left
  return h.modify a (·.mapValue (·.setMaxEnd m))

/-- `_left_rotate`. -/
def leftRotate (x : ℕ) : Option (IntervalTree T U) := do
  let (t, y) ← rotatePointers .left t x
  let h ← refreshMaxEnd t.heap x
  let h ← refreshMaxEnd h y
  return { t with heap := h }

/-- `_right_rotate`: the right child is missing in the second recomputation. -/
def rightRotate (x : ℕ) : Option (IntervalTree T U) := do
  let (t, y) ← rotatePointers .right t x
  let h ← refreshMaxEnd t.heap x
  let h ← refreshMaxEndLeft h y
  return { t with heap := h }

def rotateTo : Side → IntervalTree T U → ℕ → Option (IntervalTree T U)
  | .left => leftRotate
  | .right => rightRotate

/-! ### Fix-up -/

def setColor (a : ℕ) (red : Bool) : IntervalTree T U :=
  { t with heap := t.heap.modify a (·.mapValue (·.paint red)) }

/-- `uncle_node and uncle_node.value()[]._is_red`. -/
def isRedAt : Option ℕ → Option Bool
  | none => some false
  | some a => (t.heap a).map (·.value.isRed)

/-- Case 3: recolour and rotate the grandparent. -/
def fixupRotate (s : Side) (t : IntervalTree T U) (parent grandparent : ℕ) :
    Option (IntervalTree T U) := do
  let t := (t.setColor parent false).setColor grandparent true
  let np ← t.heap parent
  let g ← np.parent
  rotateTo s.other t g

/-- Cases 2 and 3: the uncle is black. -/
def fixupBlackUncle (s : Side) (t : IntervalTree T U) (current parent grandparent : ℕ) :
    Option (IntervalTree T U × ℕ) := do
  let np ← t.heap parent
  if np.child s.other = some current then
    let t ← rotateTo s t parent
    let node ← t.heap parent
    let parent' ← node.parent
    let np' ← t.heap parent'
    let grandparent' ← np'.parent
    let t ← fixupRotate s t parent' grandparent'
    return (t, parent)
  else
    let t ← fixupRotate s t parent grandparent
    return (t, current)

/-- One round of the loop when the parent is the child of the grandparent on side `s`, with the
node to go on from. -/
def fixupBranch (s : Side) (t : IntervalTree T U) (current parent grandparent : ℕ) :
    Option (IntervalTree T U × ℕ) := do
  let ng ← t.heap grandparent
  let uncleIsRed ← t.isRedAt (ng.child s.other)
  match ng.child s.other, uncleIsRed with
  | some uncle, true =>
    return (((t.setColor parent false).setColor uncle false).setColor grandparent true, grandparent)
  | _, _ => fixupBlackUncle s t current parent grandparent

/-- The loop of `_insert_fixup`. -/
def fixupLoop : ℕ → IntervalTree T U → ℕ → Option (IntervalTree T U)
  | 0, _, _ => none
  | fuel + 1, t, current =>
    if t.root = some current then some t
    else do
      let node ← t.heap current
      let parent ← node.parent
      let np ← t.heap parent
      if np.value.isRed then
        let grandparent ← np.parent
        let ng ← t.heap grandparent
        let s := if ng.left = some parent then Side.left else Side.right
        let (t, current) ← fixupBranch s t current parent grandparent
        fixupLoop fuel t current
      else some t

/-- `_insert_fixup`. -/
def insertFixup (fuel : ℕ) (t : IntervalTree T U) (current : ℕ) : Option (IntervalTree T U) := do
  let t ← fixupLoop fuel t current
  let root ← t.root
  return t.setColor root false

/-! ### Insertion -/

/-- The descent of `insert`: the heap with the bounds raised on the way, and the last node. -/
def descend (interval : Interval T) : ℕ → Heap (NodeData T U) → Option ℕ → Option ℕ →
    Option (Heap (NodeData T U) × Option ℕ)
  | 0, _, _, _ => none
  | _ + 1, h, parentNode, none => some (h, parentNode)
  | fuel + 1, h, _, some current => do
    let n ← h current
    let next := if interval.lt n.value.interval then n.left else n.right
    descend interval fuel (h.modify current (·.mapValue (·.raise interval.stop))) (some current) next

/-- Hang the new node in below the last node of the descent. -/
def attach (interval : Interval T) (newNode : ℕ) :
    Option ℕ → Option (IntervalTree T U)
  | none => some { t with root := some newNode }
  | some p => do
    let np ← t.heap p
    let side := if interval.lt np.value.interval then Side.left else Side.right
    return { t with heap := t.heap.modify p (·.setChild side (some newNode)) }

def insert (fuel : ℕ) (t : IntervalTree T U) (interval : Interval T) (data : U) :
    Option (IntervalTree T U) :=
  let newNode := t.heap.fresh
  let cell : IntervalNode T U := ⟨⟨interval, data, interval.stop, true⟩, none, none, none⟩
  let t := { t with heap := t.heap.alloc cell, len := t.len + 1 }
  match t.root with
  | none => some ({ t with root := some newNode }.setColor newNode false)
  | some root => do
    let (h, parentNode) ← descend interval fuel t.heap none (some root)
    let t := { t with heap := h.modify newNode (·.setParent parentNode) }
    let t ← t.attach interval newNode parentNode
    insertFixup fuel t newNode

/-- A sequence of `insert` calls. -/
def insertAll (fuel : ℕ) (t : IntervalTree T U) : List (Interval T × U) → Option (IntervalTree T U)
  | [] => some t
  | (interval, data) :: rest => do
    let t ← t.insert fuel interval data
    insertAll fuel t rest

/-! ### Search -/

/-- The work list with the left child of `n` on it, if the child passes its test. -/
def pushLeft (q : Interval T) (n : IntervalNode T U)
    (work : List (Option ℕ)) : Option (List (Option ℕ)) :=
  match n.left with
  | none => some work
  | some l => (h l).map (fun nl => if nl.value.interval.start ≤ q.stop then some l :: work else work)

/-- The work list with the right child of `n` on it, if the child passes its test. -/
def pushRight (q : Interval T) (n : IntervalNode T U)
    (work : List (Option ℕ)) : Option (List (Option ℕ)) :=
  match n.right with
  | none => some work
  | some r => (h r).map (fun nr => if nr.value.maxEnd ≥ q.start then some r :: work else work)

/-- The loop of `_search_helper`.  The work list is a stack; its top is the head of the list. -/
def searchLoop (h : Heap (NodeData T U)) (q : Interval T) : ℕ → List (Option ℕ) → List U →
    Option (List U)
  | 0, _, _ => none
  | _ + 1, [], result => some result
  | fuel + 1, none :: work, result => searchLoop h q fuel work result
  | fuel + 1, some current :: work, result => do
    let n ← h current
    let result := if n.value.interval.overlaps q then result ++ [n.value.data] else result
    let work ← pushLeft h q n work
    let work ← pushRight h q n work
    searchLoop h q fuel work result

def search (fuel : ℕ) (t : IntervalTree T U) (q : Interval T) : Option (List U) :=
  searchLoop t.heap q fuel [t.root] []

end IntervalTree
