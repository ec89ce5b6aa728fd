/-
What insertion does to the shape of an interval tree.

The pointer program of `IntervalTree` is followed with a cursor (`Cursor t focus ctx`)
and every part of it is shown to compute a function on trees:

* `rotateTo_spec` — a rotation is `rotateTree`, with the bounds the source recomputes;
* `fixupLoop_spec` — the fix-up loop is `fixTree`; it never follows an absent pointer,
  because the root is black, and it climbs two levels a round;
* `insert_spec` — an insertion is `insertTree`, which keeps the stored entries and adds
  the new one.
-/
import MojoMac.IntervalTree

open PointerTree List Heap
open PointerTree.BinTree (join)
open PointerTree.Cell (make)
open Option (bind_eq_bind bind_some)

namespace IntervalTree

variable {T U : Type}

/-! ### The cursor -/

abbrev Tree (T U : Type) :=
  BinTree (NodeData T U)

/-- The frames around a focus. -/
abbrev Context (T U : Type) :=
  List (Frame (NodeData T U))

variable {t : IntervalTree T U} {ctx : Context T U} {s : Side} {x : ℕ} {v : NodeData T U}
  {u : Tree T U} {f : Frame (NodeData T U)}

/-- The heap of `t` lays out the focus `u` within `ctx`, and the root pointer points to the root. -/
structure Cursor (t : IntervalTree T U) (u : Tree T U)
    (ctx : Context T U) : Prop extends At t.heap u ctx where
  root : t.root = (plug ctx u).ptr

section cursor

variable {y : ℕ} {w : Tree T U}

theorem Cursor.join_iff : Cursor t (join s x v u w) ctx ↔ Cursor t u (⟨s, x, v, w⟩ :: ctx) :=
  ⟨fun h => ⟨at_join_iff.mp h.toAt, h.root⟩, fun h => ⟨at_join_iff.mpr h.toAt, h.root⟩⟩

theorem Cursor.sibling_iff :
    Cursor t u (⟨s, x, v, w⟩ :: ctx) ↔ Cursor t w (⟨s.other, x, v, u⟩ :: ctx) := by
  rw [← Cursor.join_iff, ← Cursor.join_iff, BinTree.join_other]

/-- The root pointer only depends on the root of the focus, and only if there are no frames. -/
theorem ptr_plug_congr {u' : Tree T U} (h : u.ptr = u'.ptr)
    (ctx : Context T U) : (plug ctx u).ptr = (plug ctx u').ptr := by
  cases ctx with
  | nil => exact h
  | cons f ctx => exact ptr_plug_cons f ctx u u'

theorem exists_ptr_plug (hu : u.ptr = some x) (ctx : Context T U) :
    ∃ z, (plug ctx u).ptr = some z := by
  cases ctx with
  | nil => exact ⟨x, hu⟩
  | cons f ctx =>
    obtain ⟨z, _, hptr⟩ := ptr_plug_cons_mem f ctx u
    exact ⟨z, hptr⟩

theorem Cursor.mapValue (h : Cursor t (join s x v u w) ctx) (f : NodeData T U → NodeData T U) :
    Cursor { t with heap := t.heap.modify x (·.mapValue f) } (join s x (f v) u w) ctx :=
  ⟨h.toAt.mapValue f, h.root.trans (ptr_plug_congr (by simp) ctx)⟩

/-- The link from above is moved from `x` to `y`, whichever side it is on. -/
theorem relink_cons (par : Option ℕ)
    (hcell : t.heap f.addr = some (make f.side f.value (some x) f.sibling.ptr par))
    (hne : f.sibling.ptr ≠ some x) : relink s t (some f.addr) x y =
      some { t with heap := t.heap.modify f.addr (·.setChild f.side (some y)) } := by
  have hside : (if (make f.side f.value (some x) f.sibling.ptr par).child s = some x then s
      else s.other) = f.side := by
    by_cases hs : f.side = s
    · rw [hs, Cell.make_child, if_pos rfl]
    · rw [Side.eq_other_of_ne hs, Cell.make_other, Cell.make_child, if_neg hne]
  simp only [relink, hcell, bind_eq_bind, bind_some, hside]
  rfl

end cursor

/-! ### Rotations -/

section rotation

variable {y : ℕ} {X Y : NodeData T U} {a b c : Tree T U}

/-- The writes of a rotation, in the order of the source. -/
def rotatedHeap (s : Side) (h : Heap (NodeData T U)) (ctx : Context T U)
    (x y : ℕ) (b : Option ℕ) : Heap (NodeData T U) :=
  let h := (h.modify x (·.setChild s.other b)).setParentOf b (some x)
  let h := (h.modify y (·.setParent (up ctx))).setChildBelow ctx (some y)
  (h.modify y (·.setChild s (some x))).modify x (·.setParent (some y))

theorem at_rotatedHeap (hat : At h (join s x X a (join s y Y b c)) ctx) :
    At (rotatedHeap s h ctx x y b.ptr) (join s y Y (join s x X a b) c) ctx := by
  obtain ⟨hxy, hb, hupx, hupy, hframe⟩ := hat.rotate_ne
  have hx : h x = some (make s X a.ptr (some y) (up ctx)) := by simpa using hat.cell
  have hy : h y = some (make s Y b.ptr c.ptr (some x)) :=
    (at_sibling_iff.mp (at_join_iff.mp hat)).cell
  have hbx : b.ptr ≠ some x := fun heq => (hb x heq).1 rfl
  have hby : b.ptr ≠ some y := fun heq => (hb y heq).2.1 rfl
  refine hat.rotate ?_ ?_ ?_ ?_ ?_
  · have hcell : h.modify x (·.setChild s.other b.ptr) x = some (make s X a.ptr b.ptr (up ctx)) := by
      rw [modify_self hx, Cell.setChild_other_make]
    rw [rotatedHeap, modify_apply, if_pos rfl, modify_of_ne hxy, setChildBelow_of_ne _ _ hupx,
      modify_of_ne hxy, setParentOf_apply, if_neg hbx, hcell, Option.map_some, Cell.setParent_make]
  · have hcell : h.modify x (·.setChild s.other b.ptr) y = some (make s Y b.ptr c.ptr (some x)) := by
      rw [modify_of_ne hxy.symm, hy]
    rw [rotatedHeap, modify_of_ne hxy.symm, modify_apply, if_pos rfl,
      setChildBelow_of_ne _ _ hupy, modify_apply, if_pos rfl, setParentOf_apply,
      if_neg hby, hcell, Option.map_some, Option.map_some, Cell.setParent_make, Cell.setChild_make]
  · intro z hz
    obtain ⟨hzx, hzy, hzup⟩ := hb z hz
    rw [rotatedHeap, modify_of_ne hzx, modify_of_ne hzy, setChildBelow_of_ne _ _ hzup, modify_of_ne
      hzy, setParentOf_apply, if_pos hz, modify_of_ne hzx]
  · rintro f rest rfl
    obtain ⟨hfx, hfy, hfb, -⟩ := hframe f rfl
    rw [rotatedHeap, modify_of_ne hfx, modify_of_ne hfy]
    show modify _ f.addr _ f.addr = _
    rw [modify_apply, if_pos rfl, modify_of_ne hfy, setParentOf_apply, if_neg hfb, modify_of_ne hfx]
  · intro z hzx hzy hzb hzup
    rw [rotatedHeap, modify_of_ne hzx, modify_of_ne hzy, setChildBelow_of_ne _ _ hzup, modify_of_ne
      hzy, setParentOf_apply, if_neg hzb, modify_of_ne hzx]

/-- The pointer part of a rotation. -/
theorem rotatePointers_spec (h : Cursor t (join s x X a (join s y Y b c)) ctx) :
    ∃ t', rotatePointers s t x = some (t', y) ∧ t'.len = t.len ∧
      Cursor t' (join s y Y (join s x X a b) c) ctx := by
  obtain ⟨-, -, -, -, hframe⟩ := h.toAt.rotate_ne
  have hx : t.heap x = some (make s X a.ptr (some y) (up ctx)) := by simpa using h.toAt.cell
  have hy : t.heap y = some (make s Y b.ptr c.ptr (some x)) :=
    (at_sibling_iff.mp (at_join_iff.mp h.toAt)).cell
  have hat := at_rotatedHeap h.toAt
  cases ctx with
  | nil =>
    refine ⟨{ t with heap := rotatedHeap s t.heap [] x y b.ptr, root := some y }, ?_, rfl, hat, ?_⟩
    · simp only [rotatePointers, hx, hy, bind_eq_bind, bind_some,
        Cell.make_child_other, Cell.make_child, Cell.make_parent]
      rfl
    · simp [plug]
  | cons f rest =>
    obtain ⟨hfx, hfy, hfb, hsib⟩ := hframe f rfl
    refine ⟨{ t with heap := rotatedHeap s t.heap (f :: rest) x y b.ptr }, ?_, rfl, hat, ?_⟩
    · have hcell := h.toAt.cell_up
      rw [BinTree.ptr_join] at hcell
      simp only [rotatePointers, hx, hy, bind_eq_bind, bind_some,
        Cell.make_child_other, Cell.make_child, Cell.make_parent, up]
      rw [relink_cons (up rest) (by
        rw [modify_of_ne hfy, setParentOf_apply, if_neg hfb, modify_of_ne hfx, hcell]) hsib]
      rfl
    · exact h.root.trans (ptr_plug_cons f rest _ _)

end rotation

section bounds

variable [LinearOrder T]
  {y : ℕ} {X Y : NodeData T U} {a b c w : Tree T U}

/-- `max` of a bound with the bound at the root of a subtree. -/
def childMax (m : T) : Tree T U → T
  | .nil => m
  | .node _ v _ _ => max m v.maxEnd

/-- The value of a node with the bound recomputed from both children. -/
def refreshed (v : NodeData T U) (l r : Tree T U) : NodeData T U :=
  v.setMaxEnd (childMax (childMax v.interval.stop l) r)

/-- The value of the node that moves down, with `u` on side `s`. -/
def lowered (s : Side) (v : NodeData T U) (u w : Tree T U) : NodeData T U :=
  match s with
  | .left => refreshed v u w
  | .right => refreshed v w u

/-- The value of the node that moves up, with the lowered node `u` on side `s`: a right rotation
only looks at the other child. -/
def lifted (s : Side) (v : NodeData T U) (u w : Tree T U) : NodeData T U :=
  match s with
  | .left => refreshed v u w
  | .right => v.setMaxEnd (childMax v.interval.stop w)

/-- The rotation towards side `s` of the node `x` over `a` and `y`, which is over `b` and `c`. -/
def rotateTree (s : Side) (x : ℕ) (X : NodeData T U) (a : Tree T U) (y : ℕ)
    (Y : NodeData T U) (b c : Tree T U) : Tree T U :=
  join s y (lifted s Y (join s x (lowered s X a b) a b) c) (join s x (lowered s X a b) a b) c

theorem maxWithChild_eq {par : Option ℕ} (hown : Owns h par u) (m : T) :
    maxWithChild h m u.ptr = some (childMax m u) := by
  cases u with
  | nil => rfl
  | node z v l r =>
    show (h z).map _ = _
    rw [hown.1]
    rfl

/-- Recomputing a bound from both children. -/
theorem refreshMaxEnd_spec (h : Cursor t (join s x v u w) ctx) :
    ∃ h', refreshMaxEnd t.heap x = some h' ∧
      Cursor { t with heap := h' } (join s x (lowered s v u w) u w) ctx := by
  obtain ⟨hcell, hu, hw⟩ := owns_join.mp h.focus
  have hlowered : v.setMaxEnd (lowered s v u w).maxEnd = lowered s v u w := by cases s <;> rfl
  have hwritten := h.mapValue (·.setMaxEnd (lowered s v u w).maxEnd)
  rw [hlowered] at hwritten
  refine ⟨_, ?_, hwritten⟩
  cases s with
  | left =>
    have hcell : t.heap x = some ⟨v, u.ptr, w.ptr, up ctx⟩ := hcell
    simp only [refreshMaxEnd, hcell, bind_eq_bind, bind_some, maxWithChild_eq hu,
      maxWithChild_eq hw]
    rfl
  | right =>
    have hcell : t.heap x = some ⟨v, w.ptr, u.ptr, up ctx⟩ := hcell
    simp only [refreshMaxEnd, hcell, bind_eq_bind, bind_some, maxWithChild_eq hu,
      maxWithChild_eq hw]
    rfl

theorem refreshMaxEndLeft_spec (h : Cursor t (join .right x v u w) ctx) :
    ∃ h', refreshMaxEndLeft t.heap x = some h' ∧
      Cursor { t with heap := h' } (join .right x (lifted .right v u w) u w) ctx := by
  obtain ⟨hcell, hu, hw⟩ := owns_join.mp h.focus
  refine ⟨t.heap.modify x (·.mapValue (·.setMaxEnd (lifted .right v u w).maxEnd)), ?_, h.mapValue _⟩
  have hcell : t.heap x = some ⟨v, w.ptr, u.ptr, up ctx⟩ := hcell
  simp only [refreshMaxEndLeft, hcell, bind_eq_bind, bind_some, maxWithChild_eq hw]
  rfl

/-- A rotation of the source is the rotation of the tree. -/
theorem rotateTo_spec (h : Cursor t (join s x X a (join s y Y b c)) ctx) :
    ∃ t', rotateTo s t x = some t' ∧ t'.len = t.len ∧
      Cursor t' (rotateTree s x X a y Y b c) ctx := by
  obtain ⟨t₁, hpointers, hlen, h₁⟩ := rotatePointers_spec h
  obtain ⟨h₂, hrefresh₂, hcursor₂⟩ := refreshMaxEnd_spec (Cursor.join_iff.mp h₁)
  have hy := Cursor.join_iff.mpr hcursor₂
  cases s with
  | left =>
    obtain ⟨h₃, hrefresh₃, hcursor₃⟩ := refreshMaxEnd_spec hy
    refine ⟨{ t₁ with heap := h₃ }, ?_, hlen, hcursor₃⟩
    simp only [rotateTo, leftRotate, hpointers, bind_eq_bind, bind_some, hrefresh₂]
    rw [show refreshMaxEnd h₂ y = some h₃ from hrefresh₃]
    rfl
  | right =>
    obtain ⟨h₃, hrefresh₃, hcursor₃⟩ := refreshMaxEndLeft_spec hy
    refine ⟨{ t₁ with heap := h₃ }, ?_, hlen, hcursor₃⟩
    simp only [rotateTo, rightRotate, hpointers, bind_eq_bind, bind_some, hrefresh₂]
    rw [show refreshMaxEndLeft h₂ y = some h₃ from hrefresh₃]
    rfl

end bounds

/-! ### Fix-up -/

section fixup

variable {cur : ℕ} {w : Tree T U} {p g : Frame (NodeData T U)}

def isRed : Tree T U → Bool
  | .nil => false
  | .node _ v _ _ => v.isRed

def paintRoot (red : Bool) : Tree T U → Tree T U
  | .nil => .nil
  | .node a v l r => .node a (v.paint red) l r

/-- The whole tree, with the cursor back at the root. -/
theorem Cursor.whole (h : Cursor t u ctx) : Cursor t (plug ctx u) [] :=
  ⟨at_of_owns h.toAt.owns h.toAt.nodup_plug, h.root⟩

theorem Cursor.root_ne (h : Cursor t u (p :: ctx)) (hcur : u.ptr = some cur) :
    t.root ≠ some cur := by
  intro heq
  obtain ⟨z, hz, hptr⟩ := ptr_plug_cons_mem p ctx u
  have hzcur : z = cur := Option.some.inj (hptr.symm.trans (h.root.symm.trans heq))
  have hdisjoint := disjoint_of_nodup_append h.nodup
  exact hdisjoint (BinTree.mem_addrs_of_ptr hcur) (hzcur ▸ hz)

/-- The cell of the root of the focus names the nearest frame as its parent. -/
theorem Cursor.parent_eq (h : Cursor t u ctx) (hcur : u.ptr = some cur) :
    ∃ n, t.heap cur = some n ∧ n.parent = up ctx := by
  cases u with
  | nil => simp [BinTree.ptr] at hcur
  | node a v l r =>
    obtain rfl : a = cur := Option.some.inj hcur
    exact ⟨_, h.focus.1, rfl⟩

theorem Cursor.sibling_ne (h : Cursor t u (p :: ctx)) (hcur : u.ptr = some cur) :
    p.sibling.ptr ≠ some cur := by
  intro heq
  have hdisjoint := disjoint_of_nodup_append h.nodup
  refine hdisjoint (BinTree.mem_addrs_of_ptr hcur) ?_
  exact mem_cons_of_mem _ (mem_append_left _ (BinTree.mem_addrs_of_ptr heq))

/-- The test which child of `p` the focus is. -/
theorem Cursor.child_eq_iff (h : Cursor t u (p :: ctx)) (hcur : u.ptr = some cur) (par : Option ℕ) :
    (make p.side p.value u.ptr p.sibling.ptr par).child s = some cur ↔ p.side = s := by
  by_cases hs : p.side = s
  · rw [← hs, Cell.make_child]
    exact iff_of_true hcur rfl
  · rw [Side.eq_other_of_ne hs, Cell.make_other, Cell.make_child]
    exact iff_of_false (h.sibling_ne hcur) (Side.other_ne s)

theorem Cursor.setColor (h : Cursor t (join s x v u w) ctx) (red : Bool) :
    Cursor (t.setColor x red) (join s x (v.paint red) u w) ctx :=
  h.mapValue (·.paint red)

theorem Cursor.setColor_root (h : Cursor t u ctx) (hcur : u.ptr = some cur) (red : Bool) :
    Cursor (t.setColor cur red) (paintRoot red u) ctx := by
  cases u with
  | nil => simp [BinTree.ptr] at hcur
  | node a v l r =>
    obtain rfl : a = cur := Option.some.inj hcur
    exact Cursor.setColor (s := .left) h red

theorem isRedAt_eq (h : Cursor t u ctx) : t.isRedAt u.ptr = some (isRed u) := by
  cases u with
  | nil => rfl
  | node a v l r =>
    show (t.heap a).map _ = _
    rw [h.focus.1]
    rfl

variable [LinearOrder T]

/-- Case 2: if the focus `u` is not on side `s` of the frame `p`, a rotation of `p` puts it above
`p`; the new nearest frame and the new focus. -/
def straighten (s : Side) (p : Frame (NodeData T U)) :
    Tree T U → Frame (NodeData T U) × Tree T U
  | .nil => (p, .nil)
  | .node y Y l r =>
    if p.side = s then (p, .node y Y l r)
    else
      let b := BinTree.pick s l r
      let c := BinTree.pick s.other l r
      let near := join s p.addr (lowered s p.value p.sibling b) p.sibling b
      (⟨s, y, lifted s Y near c, c⟩, near)

/-- The tree that the fix-up loop makes of the focus `u` within the frames. -/
def fixTree : Tree T U → Context T U → Tree T U
  | u, [] => u
  | u, [p] => plug [p] u
  | u, p :: g :: ctx =>
    if p.value.isRed then
      if isRed g.sibling then
        fixTree (join g.side g.addr (g.value.paint true)
          (join p.side p.addr (p.value.paint false) u p.sibling) (paintRoot false g.sibling)) ctx
      else
        let (q, near) := straighten g.side p u
        plug ctx (rotateTree g.side.other g.addr (g.value.paint true) g.sibling
          q.addr (q.value.paint false) q.sibling near)
    else plug (p :: g :: ctx) u

/-- Case 3, with parent and focus on the same side. -/
theorem fixupRotate_spec (h : Cursor t u (p :: g :: ctx)) (hp : p.side = s) (hg : g.side = s) :
    ∃ t', fixupRotate s t p.addr g.addr = some t' ∧ t'.len = t.len ∧
      Cursor t' (rotateTree s.other g.addr (g.value.paint true) g.sibling
        p.addr (p.value.paint false) p.sibling u) ctx := by
  have hpainted := (Cursor.join_iff.mp ((Cursor.join_iff.mpr
    ((Cursor.join_iff.mpr h).setColor false)).setColor true))
  rw [hp, hg] at hpainted
  have hcell := hpainted.toAt.cell
  have hwhole := Cursor.join_iff.mpr hpainted
  -- seen from the other side, the grandparent is over its sibling and the parent
  rw [← BinTree.join_other, ← BinTree.join_other s p.addr] at hwhole
  obtain ⟨t', hrotate, hlen, hcursor⟩ := rotateTo_spec hwhole
  refine ⟨t', ?_, hlen, hcursor⟩
  simp only [fixupRotate, hcell, bind_eq_bind, bind_some, Cell.make_parent, up]
  exact hrotate

/-- The loop ends at a node with a black parent. -/
theorem fixupLoop_black (h : Cursor t u (p :: ctx)) (hcur : u.ptr = some cur)
    (hblack : p.value.isRed = false) (fuel : ℕ) : fixupLoop (fuel + 1) t cur = some t := by
  obtain ⟨n, hn, hparent⟩ := h.parent_eq hcur
  have hcell := h.toAt.cell_up
  rw [fixupLoop, if_neg (h.root_ne hcur)]
  simp only [hn, bind_eq_bind, bind_some, hparent, up, hcell, Cell.make_value, hblack]
  rfl

section

variable (h : Cursor t u (p :: g :: ctx))

include h

/-- Cases 2 and 3. -/
theorem fixupBlackUncle_spec (hcur : u.ptr = some cur) (hg : g.side = s) :
    ∃ t' cur', fixupBlackUncle s t cur p.addr g.addr = some (t', cur') ∧ t'.len = t.len ∧
      (straighten s p u).2.ptr = some cur' ∧
      Cursor t' (rotateTree s.other g.addr (g.value.paint true) g.sibling
        (straighten s p u).1.addr ((straighten s p u).1.value.paint false)
        (straighten s p u).1.sibling (straighten s p u).2) ctx := by
  have hcell := h.toAt.cell_up
  cases u with
  | nil => simp [BinTree.ptr] at hcur
  | node y Y l r =>
    by_cases hp : p.side = s
    · -- the focus is on the outer side already
      have hstraight : straighten s p (.node y Y l r) = (p, .node y Y l r) := by
        rw [straighten, if_pos hp]
      obtain ⟨t', hrotate, hlen, hcursor⟩ := fixupRotate_spec h hp hg
      have hinner : ¬ (make p.side p.value (BinTree.node y Y l r).ptr p.sibling.ptr
          (up (g :: ctx))).child s.other = some cur := by
        rw [h.child_eq_iff hcur, hp]
        exact (Side.other_ne s).symm
      rw [hstraight]
      refine ⟨t', cur, ?_, hlen, hcur, hcursor⟩
      simp only [fixupBlackUncle, hcell, bind_eq_bind, bind_some, if_neg hinner, hrotate]
      rfl
    -- the focus `y` is on the inner side: it is rotated above its parent first
    have hother := Side.eq_other_of_ne hp
    have hstraight : straighten s p (.node y Y l r) =
        (⟨s, y, lifted s Y (join s p.addr (lowered s p.value p.sibling (BinTree.pick s l r))
            p.sibling (BinTree.pick s l r)) (BinTree.pick s.other l r), BinTree.pick s.other l r⟩,
          join s p.addr (lowered s p.value p.sibling (BinTree.pick s l r))
            p.sibling (BinTree.pick s l r)) := by
      rw [straighten, if_neg hp]
    have hbelow := Cursor.join_iff.mpr h
    rw [hother, BinTree.join_other, BinTree.node_eq_join s y Y l r] at hbelow
    obtain ⟨t₁, hrotate₁, hlen₁, hcursor₁⟩ := rotateTo_spec hbelow
    have hnear := Cursor.join_iff.mp hcursor₁
    obtain ⟨t', hrotate, hlen, hcursor⟩ := fixupRotate_spec hnear rfl hg
    have hinner : (make p.side p.value (BinTree.node y Y l r).ptr p.sibling.ptr
        (up (g :: ctx))).child s.other = some cur := by
      rw [h.child_eq_iff hcur, hother]
    have hcellp := hnear.toAt.cell
    have hcelly := hnear.toAt.cell_up
    rw [hstraight]
    refine ⟨t', p.addr, ?_, hlen.trans hlen₁, by simp, hcursor⟩
    simp only [fixupBlackUncle, hcell, bind_eq_bind, bind_some,
      hrotate₁, hcellp, hcelly, Cell.make_parent, up]
    rw [hrotate]
    exact if_pos hinner

/-- Case 1: parent and uncle become black, the grandparent red. -/
theorem fixupBranch_red (cur : ℕ) (huncle : isRed g.sibling = true) :
    ∃ t', fixupBranch g.side t cur p.addr g.addr = some (t', g.addr) ∧ t'.len = t.len ∧
      Cursor t' (join g.side g.addr (g.value.paint true)
        (join p.side p.addr (p.value.paint false) u p.sibling) (paintRoot false g.sibling)) ctx := by
  have hparent := Cursor.join_iff.mpr h
  have hcell := hparent.toAt.cell_up
  have hred := isRedAt_eq (Cursor.sibling_iff.mp hparent)
  cases hsib : g.sibling with
  | nil => simp [hsib, isRed] at huncle
  | node z Z l r =>
    have huncleRed : Z.isRed = true := by simpa [hsib, isRed] using huncle
    rw [hsib] at hcell hred
    -- the cursor goes to the parent, over to the uncle and up to the grandparent
    have hpainted := Cursor.sibling_iff.mp (hparent.setColor false)
    rw [hsib] at hpainted
    have hback := Cursor.sibling_iff.mp (hpainted.setColor_root rfl false)
    rw [Side.other_other] at hback
    refine ⟨((t.setColor p.addr false).setColor z false).setColor g.addr true, ?_, rfl,
      (Cursor.join_iff.mpr hback).setColor true⟩
    simp only [fixupBranch, hcell, bind_eq_bind, bind_some, Cell.make_child_other,
      hred, isRed, huncleRed]
    rfl

theorem fixupBranch_black (cur : ℕ) (huncle : isRed g.sibling = false) :
    fixupBranch g.side t cur p.addr g.addr = fixupBlackUncle g.side t cur p.addr g.addr := by
  have hparent := Cursor.join_iff.mpr h
  have hcell := hparent.toAt.cell_up
  have hred := isRedAt_eq (Cursor.sibling_iff.mp hparent)
  simp only [fixupBranch, hcell, bind_eq_bind, bind_some, Cell.make_child_other, hred, huncle]
  cases g.sibling.ptr <;> rfl

/-- A round of the loop below a red parent. -/
theorem fixupLoop_red (hcur : u.ptr = some cur) (hred : p.value.isRed = true) (fuel : ℕ) :
    fixupLoop (fuel + 1) t cur =
      (fixupBranch g.side t cur p.addr g.addr).bind (fun r => fixupLoop fuel r.1 r.2) := by
  obtain ⟨n, hn, hparent⟩ := h.parent_eq hcur
  have hparent : n.parent = some p.addr := hparent
  have hcellp : t.heap p.addr = some (make p.side p.value u.ptr p.sibling.ptr (some g.addr)) :=
    h.toAt.cell_up
  have hbelow := Cursor.join_iff.mpr h
  have hcellg := hbelow.toAt.cell_up
  have hside : (if (make g.side g.value (join p.side p.addr p.value u p.sibling).ptr g.sibling.ptr
      (up ctx)).left = some p.addr then Side.left else Side.right) = g.side := by
    have hiff : (make g.side g.value (join p.side p.addr p.value u p.sibling).ptr g.sibling.ptr
        (up ctx)).left = some p.addr ↔ g.side = .left :=
      hbelow.child_eq_iff (s := .left) (BinTree.ptr_join _ _ _ _ _) (up ctx)
    by_cases hleft : g.side = .left
    · rw [if_pos (hiff.mpr hleft), hleft]
    · rw [if_neg (mt hiff.mp hleft)]
      exact (Side.eq_other_of_ne hleft).symm
  rw [fixupLoop, if_neg (h.root_ne hcur)]
  simp only [hn, bind_eq_bind, bind_some, hparent, hcellp, Cell.make_value, hred,
    Cell.make_parent, hcellg, hside, if_true]

end

/-- **The fix-up loop** is `fixTree`, if the root is black and the fuel exceeds the depth of the
cursor. -/
theorem fixupLoop_spec (fuel : ℕ) (h : Cursor t u ctx) (hcur : u.ptr = some cur)
    (hroot : ∀ f, ctx.getLast? = some f → f.value.isRed = false) (hfuel : ctx.length < fuel) :
    ∃ t', fixupLoop fuel t cur = some t' ∧ t'.len = t.len ∧
      Cursor t' (fixTree u ctx) [] ∧ ∃ z, (fixTree u ctx).ptr = some z := by
  obtain ⟨fuel, rfl⟩ := Nat.exists_eq_add_of_lt (Nat.zero_lt_of_lt hfuel)
  rw [zero_add] at hfuel ⊢
  induction u, ctx using fixTree.induct generalizing t cur fuel with
  | case1 u =>
    rw [fixTree]
    refine ⟨t, ?_, rfl, h, cur, hcur⟩
    rw [fixupLoop, if_pos (h.root.trans hcur)]
  | case2 u p =>
    rw [fixTree]
    exact ⟨t, fixupLoop_black h hcur (hroot p rfl) fuel, rfl, h.whole, exists_ptr_plug hcur _⟩
  | case3 u p g ctx hred huncle ih =>
    obtain ⟨t₁, hbranch, hlen₁, hcursor₁⟩ := fixupBranch_red h cur huncle
    rw [length_cons, length_cons] at hfuel
    have hroot' : ∀ f, ctx.getLast? = some f → f.value.isRed = false := by
      intro f hf
      refine hroot f ?_
      rw [getLast?_cons_of_ne_nil (by simp), getLast?_cons_of_ne_nil ?_, hf]
      rintro rfl
      simp at hf
    obtain ⟨fuel, rfl⟩ : ∃ n, fuel = n + 1 := ⟨fuel - 1, by omega⟩
    obtain ⟨t', hloop, hlen, hcursor⟩ := ih hcursor₁ (BinTree.ptr_join _ _ _ _ _) hroot' fuel (by omega)
    rw [fixTree, if_pos hred, if_pos huncle]
    refine ⟨t', ?_, hlen.trans hlen₁, hcursor⟩
    rw [fixupLoop_red h hcur hred, hbranch, bind_some]
    exact hloop
  | case4 u p g ctx hred huncle q near hstraight =>
    have huncle : isRed g.sibling = false := by simpa using huncle
    obtain ⟨t', cur', hbranch, hlen, hcur', hcursor⟩ := fixupBlackUncle_spec h hcur rfl
    rw [hstraight] at hcur' hcursor
    rw [length_cons, length_cons] at hfuel
    obtain ⟨fuel, rfl⟩ : ∃ n, fuel = n + 1 := ⟨fuel - 1, by omega⟩
    rw [fixTree, if_pos hred, if_neg (by simp [huncle]), hstraight]
    refine ⟨t', ?_, hlen, hcursor.whole, exists_ptr_plug (BinTree.ptr_join _ _ _ _ _) ctx⟩
    -- the loop looks once more, and finds the parent black
    have hnear := Cursor.sibling_iff.mp (Cursor.join_iff.mp hcursor)
    rw [fixupLoop_red h hcur hred, fixupBranch_black h cur huncle, hbranch, bind_some]
    refine fixupLoop_black hnear hcur' ?_ fuel
    cases g.side <;> rfl
  | case5 u p g ctx hblack =>
    rw [fixTree, if_neg hblack]
    exact ⟨t, fixupLoop_black h hcur (by simpa using hblack) fuel, rfl, h.whole, exists_ptr_plug hcur _⟩

end fixup

/-! ### Insertion -/

section insertion

variable [LinearOrder T]
  {interval : Interval T}

/-- The frames on the way of a new interval down the tree, with the bounds raised. -/
def path (interval : Interval T) :
    Tree T U → Context T U → Context T U
  | .nil, ctx => ctx
  | .node a v l r, ctx =>
    if interval.lt v.interval then path interval l (⟨.left, a, v.raise interval.stop, r⟩ :: ctx)
    else path interval r (⟨.right, a, v.raise interval.stop, l⟩ :: ctx)

attribute [local simp] path

/-- The tree that `insert` makes, with the new node at address `a`. -/
def insertTree (interval : Interval T) (data : U) (a : ℕ) (u : Tree T U) : Tree T U :=
  paintRoot false
    (fixTree (.node a ⟨interval, data, interval.stop, true⟩ .nil .nil) (path interval u []))

theorem length_path_le (interval : Interval T) (u : Tree T U) (ctx : Context T U) :
    (path interval u ctx).length ≤ u.addrs.length + ctx.length := by
  induction u generalizing ctx with
  | nil => simp [BinTree.addrs]
  | node a v l r ihl ihr =>
    have hl := ihl (⟨.left, a, v.raise interval.stop, r⟩ :: ctx)
    have hr := ihr (⟨.right, a, v.raise interval.stop, l⟩ :: ctx)
    rw [path]
    simp only [BinTree.addrs, length_cons, length_append] at hl hr ⊢
    split <;> omega

theorem mem_frameAddrs_path {z : ℕ} (hz : z ∈ frameAddrs (path interval u ctx)) :
    z ∈ u.addrs ∨ z ∈ frameAddrs ctx := by
  induction u generalizing ctx with
  | nil => exact .inr hz
  | node a v l r ihl ihr =>
    rw [path] at hz
    split at hz
    · have := ihl hz
      simp only [frameAddrs, BinTree.addrs, mem_cons, mem_append] at this ⊢
      tauto
    · have := ihr hz
      simp only [frameAddrs, BinTree.addrs, mem_cons, mem_append] at this ⊢
      tauto

/-- The descent leaves the frame of the root in place. -/
theorem getLast?_path (interval : Interval T) (u : Tree T U) (h : ctx.getLast? = some f) :
    (path interval u ctx).getLast? = some f := by
  have hne : ctx ≠ [] := by
    rintro rfl
    simp at h
  induction u generalizing ctx with
  | nil => exact h
  | node a v l r ihl ihr =>
    rw [path]
    split
    · exact ihl (by rw [getLast?_cons_of_ne_nil hne, h]) (by simp)
    · exact ihr (by rw [getLast?_cons_of_ne_nil hne, h]) (by simp)

theorem path_root_black (hblack : isRed u = false) (f : Frame (NodeData T U))
    (hf : (path interval u []).getLast? = some f) : f.value.isRed = false := by
  cases u with
  | nil => simp at hf
  | node a v l r =>
    have hv : v.isRed = false := hblack
    rw [path] at hf
    split at hf
    all_goals
      rw [getLast?_path interval _ getLast?_singleton] at hf
      obtain rfl := Option.some.inj hf
      exact hv

/-- The new interval goes to the side it was compared to be on. -/
theorem path_side (f : Frame (NodeData T U)) (rest : Context T U)
    (hpath : path interval u ctx = f :: rest) (hctx : ∀ g rest, ctx = g :: rest →
      (if interval.lt g.value.interval then Side.left else Side.right) = g.side) :
    (if interval.lt f.value.interval then Side.left else Side.right) = f.side := by
  induction u generalizing ctx with
  | nil => exact hctx f rest hpath
  | node a v l r ihl ihr =>
    rw [path] at hpath
    split at hpath
    case isTrue hlt =>
      refine ihl hpath ?_
      rintro g rest ⟨⟩
      exact if_pos hlt
    case isFalse hge =>
      refine ihr hpath ?_
      rintro g rest ⟨⟩
      exact if_neg hge

/-- The tree with `w` hung in at the end of the descent, and the bounds raised on the way. -/
def hang (interval : Interval T) (w : Tree T U) :
    Tree T U → Tree T U
  | .nil => w
  | .node a v l r =>
    if interval.lt v.interval then .node a (v.raise interval.stop) (hang interval w l) r
    else .node a (v.raise interval.stop) l (hang interval w r)

theorem plug_path (interval : Interval T) (u w : Tree T U) (ctx : Context T U) :
    plug (path interval u ctx) w = plug ctx (hang interval w u) := by
  induction u generalizing ctx with
  | nil => rfl
  | node a v l r ihl ihr =>
    rw [path, hang]
    split
    · exact ihl _
    · exact ihr _

theorem ptr_plug_path (interval : Interval T) (w : Tree T U) (hu : u ≠ .nil) :
    (plug (path interval u []) w).ptr = u.ptr := by
  rw [plug_path]
  cases u with
  | nil => exact absurd rfl hu
  | node a v l r =>
    show (hang interval w _).ptr = _
    rw [hang]
    split <;> rfl

/-- The descent of the source follows `path`, and touches only the nodes of the tree. -/
theorem descend_spec (fuel : ℕ) (hat : At h u ctx) (hfuel : u.addrs.length < fuel) :
    ∃ h', descend interval fuel h (up ctx) u.ptr = some (h', up (path interval u ctx)) ∧
      At h' .nil (path interval u ctx) ∧ ∀ z ∉ u.addrs, h' z = h z := by
  induction u generalizing h ctx fuel with
  | nil =>
    obtain ⟨fuel, rfl⟩ : ∃ n, fuel = n + 1 := ⟨fuel - 1, by omega⟩
    exact ⟨h, rfl, hat, fun _ _ => rfl⟩
  | node a v l r ihl ihr =>
    obtain ⟨fuel, rfl⟩ : ∃ n, fuel = n + 1 := ⟨fuel - 1, by omega⟩
    simp only [BinTree.addrs, length_cons, length_append] at hfuel
    have hcell : h a = some ⟨v, l.ptr, r.ptr, up ctx⟩ := hat.focus.1
    have hraised := At.mapValue (s := .left) hat (·.raise interval.stop)
    have hother : ∀ z, z ∉ (BinTree.node a v l r).addrs → z ≠ a ∧ z ∉ l.addrs ∧ z ∉ r.addrs := by
      intro z hz
      simpa [BinTree.addrs, not_or] using hz
    rw [path]
    simp only [BinTree.ptr, descend, hcell, bind_eq_bind, bind_some]
    by_cases hlt : interval.lt v.interval = true
    · obtain ⟨h', hdescend, hat', hsame⟩ := ihl fuel (at_join_iff.mp hraised) (by omega)
      rw [if_pos hlt, if_pos hlt]
      refine ⟨h', hdescend, hat', fun z hz => ?_⟩
      obtain ⟨hza, hzl, _⟩ := hother z hz
      rw [hsame z hzl, modify_of_ne hza]
    · obtain ⟨h', hdescend, hat', hsame⟩ :=
        ihr fuel (at_sibling_iff.mp (at_join_iff.mp hraised)) (by omega)
      rw [if_neg hlt, if_neg hlt]
      refine ⟨h', hdescend, hat', fun z hz => ?_⟩
      obtain ⟨hza, _, hzr⟩ := hother z hz
      rw [hsame z hzr, modify_of_ne hza]

/-- Linking the new leaf in at the end of the descent. -/
theorem attach_spec {a : ℕ}
    (hat : At h .nil (path interval u [])) (hu : u ≠ .nil) (hroot : t.root = u.ptr)
    (hnew : h a = some ⟨v, none, none, none⟩) (hfresh : a ∉ frameAddrs (path interval u [])) :
    ∃ t', attach { t with heap := h.modify a (·.setParent (up (path interval u []))) } interval a
        (up (path interval u [])) = some t' ∧ t'.len = t.len ∧
      Cursor t' (.node a v .nil .nil) (path interval u []) := by
  have hplug := fun w => ptr_plug_path interval w hu
  cases hpath : path interval u [] with
  | nil =>
    cases u with
    | nil => exact absurd rfl hu
    | node b w l r =>
      have hlast := congrArg getLast? hpath
      rw [path] at hlast
      split at hlast
      all_goals
        rw [getLast?_path interval _ getLast?_singleton] at hlast
        simp at hlast
  | cons f rest =>
    rw [hpath] at hat hfresh hplug
    have hne : f.addr ≠ a := fun heq => hfresh (heq ▸ mem_cons_self)
    have hside := path_side f rest hpath (by simp)
    have hcell : h.modify a (·.setParent (some f.addr)) f.addr =
        some (make f.side f.value none f.sibling.ptr (up rest)) := by
      rw [modify_of_ne hne]
      exact hat.cell_up
    let h' := (h.modify a (·.setParent (some f.addr))).modify f.addr (·.setChild f.side (some a))
    refine ⟨{ t with heap := h' }, ?_, rfl, hat.graft hfresh ?_ ?_ ?_, ?_⟩
    · simp only [up, attach, hcell, bind_eq_bind, bind_some, Cell.make_value, hside]
      rfl
    · show modify _ f.addr _ a = _
      rw [modify_of_ne hne.symm, modify_self hnew]
      rfl
    · rintro g rest ⟨⟩
      show modify _ f.addr _ f.addr = _
      rw [modify_apply, if_pos rfl, modify_of_ne hne]
    · intro z hza hzup
      have hzf : z ≠ f.addr := fun heq => hzup (heq ▸ rfl)
      show modify _ f.addr _ z = _
      rw [modify_of_ne hzf, modify_of_ne hza]
    · exact hroot.trans (hplug _).symm

/-- **Insertion** is `insertTree`. -/
theorem insert_spec (fuel : ℕ) (h : Cursor t u []) (hblack : isRed u = false)
    (hfuel : u.addrs.length < fuel) (interval : Interval T) (data : U) :
    ∃ t', t.insert fuel interval data = some t' ∧ t'.len = t.len + 1 ∧
      Cursor t' (insertTree interval data t.heap.fresh u) [] := by
  set cell : IntervalNode T U := ⟨⟨interval, data, interval.stop, true⟩, none, none, none⟩ with hcell
  have hnotMem : t.heap.fresh ∉ u.addrs := fun hmem => (h.focus.lt_fresh _ hmem).ne rfl
  have hat : At (t.heap.alloc cell) u [] := by
    refine h.toAt.congr (fun z hz => alloc_of_lt (h.focus.lt_fresh z ?_) cell)
    simpa [frameAddrs] using hz
  have hnew : t.heap.alloc cell t.heap.fresh = some cell := alloc_fresh _ _
  by_cases hnil : u = .nil
  · subst hnil
    have hroot : t.root = none := h.root
    have hleaf : Cursor { t with heap := t.heap.alloc cell, len := t.len + 1, root := some t.heap.fresh }
        (.node t.heap.fresh cell.value .nil .nil) [] :=
      ⟨hat.graft hnotMem hnew (by simp) (fun _ _ _ => rfl), rfl⟩
    refine ⟨_, ?_, rfl, hleaf.setColor_root rfl false⟩
    rw [insert, hroot]
  obtain ⟨root, hptr⟩ : ∃ root, u.ptr = some root := by
    cases u with
    | nil => exact absurd rfl hnil
    | node b w l r => exact ⟨b, rfl⟩
  have hroot : t.root = some root := h.root.trans hptr
  obtain ⟨h₁, hdescend, hat₁, hsame₁⟩ := descend_spec fuel hat hfuel
  have hnew₁ : h₁ t.heap.fresh = some cell := (hsame₁ _ hnotMem).trans hnew
  have hfresh : t.heap.fresh ∉ frameAddrs (path interval u []) := by
    intro hmem
    rcases mem_frameAddrs_path hmem with hmem | hmem
    · exact hnotMem hmem
    · simp [frameAddrs] at hmem
  obtain ⟨t₂, hattach, hlen₂, hcursor₂⟩ := attach_spec
    (t := { t with heap := t.heap.alloc cell, len := t.len + 1 }) hat₁ hnil h.root hnew₁ hfresh
  have hlength := length_path_le interval u []
  obtain ⟨t₃, hloop, hlen₃, hcursor₃, z, hz⟩ := fixupLoop_spec fuel hcursor₂ rfl
    (path_root_black hblack) (lt_of_le_of_lt hlength hfuel)
  refine ⟨t₃.setColor z false, ?_, ?_, hcursor₃.setColor_root hz false⟩
  · have hdescend : descend interval fuel (t.heap.alloc cell) none (some root) =
        some (h₁, up (path interval u [])) := hptr ▸ hdescend
    have hroot₃ : t₃.root = some z := hcursor₃.root.trans hz
    simp only [hroot] at hattach
    simp only [insert, hroot, bind_eq_bind]
    rw [hdescend]
    simp only [bind_some]
    rw [hattach]
    simp only [bind_some, insertFixup, hloop, bind_eq_bind, hroot₃]
    rfl
  · exact hlen₃.trans hlen₂

end insertion

end IntervalTree
