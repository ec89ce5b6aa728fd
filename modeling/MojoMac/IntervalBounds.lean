/-
The bounds that insertion keeps in an interval tree.

A node stores the largest end below it in `maxEnd`.  The descent raises the bounds on its way, and
the rotations recompute them; but `_right_rotate` leaves out the right child of the node that moves
up.  The right rotation of case 2 does no harm, because the left rotation that follows it computes
that bound again.  The one of case 3 leaves the bound too small if the largest end is only found
below the grandparent that moves down.

* `bound u` — the largest end in a tree, `Augmented u`: every node stores it;
* `augmented_insertTree_iff` — what one insertion does to the bounds;
* `always_augmented_iff` — the bounds stay right along a run exactly if every insertion rotates
  safely.
-/
import MojoMac.IntervalOrder
import MojoMac.Interleaving

open PointerTree
open PointerTree.BinTree (join)

namespace IntervalTree

variable {T U : Type} [LinearOrder T] {s : Side} {x y : ℕ} {v X Y : NodeData T U}
  {a b c t u u' w : Tree T U} {p : Frame (NodeData T U)}
  {ctx : Context T U}

/-! ### The largest end -/

/-- The largest end of an interval in the tree. -/
def bound : Tree T U → WithBot T
  | .nil => ⊥
  | .node _ v l r => max v.interval.stop (max (bound l) (bound r))

/-- Every node stores the largest end of the subtree rooted at it. -/
def Augmented : Tree T U → Prop
  | .nil => True
  | .node a v l r => v.maxEnd = bound (.node a v l r) ∧ Augmented l ∧ Augmented r

theorem bound_join : bound (join s x v t u) = max ↑v.interval.stop (max (bound t) (bound u)) := by
  cases s with
  | left => rfl
  | right => exact congrArg _ (max_comm _ _)

theorem augmented_join : Augmented (join s x v t u) ↔
    (v.maxEnd : WithBot T) = max ↑v.interval.stop (max (bound t) (bound u)) ∧
      Augmented t ∧ Augmented u := by
  rw [← bound_join (s := s) (x := x)]
  cases s with
  | left => exact Iff.rfl
  | right => exact and_congr Iff.rfl and_comm

@[simp] theorem bound_paintRoot (red : Bool) : bound (paintRoot red u) = bound u := by
  cases u <;> rfl

@[simp] theorem augmented_paintRoot (red : Bool) : Augmented (paintRoot red u) ↔ Augmented u := by
  cases u <;> rfl

theorem childMax_eq (h : Augmented u) (m : T) :
    ((childMax m u : T) : WithBot T) = max ↑m (bound u) := by
  cases u with
  | nil => exact (max_bot_right _).symm
  | node a v l r => rw [← h.1]; rfl

theorem maxEnd_refreshed (ht : Augmented t) (hu : Augmented u) :
    ((refreshed v t u).maxEnd : WithBot T) = max ↑v.interval.stop (max (bound t) (bound u)) := by
  rw [← max_assoc, ← childMax_eq ht, ← childMax_eq hu]
  rfl

theorem maxEnd_lowered (ht : Augmented t) (hu : Augmented u) :
    ((lowered s v t u).maxEnd : WithBot T) = max ↑v.interval.stop (max (bound t) (bound u)) := by
  cases s with
  | left => exact maxEnd_refreshed ht hu
  | right => exact (maxEnd_refreshed hu ht).trans (congrArg _ (max_comm _ _))

theorem interval_lowered : (lowered s v t u).interval = v.interval := by
  cases s <;> rfl

theorem interval_lifted : (lifted s v t u).interval = v.interval := by
  cases s <;> rfl

/-! ### Rotations -/

theorem bound_rotateTree :
    bound (rotateTree s x X a y Y b c) = bound (join s x X a (join s y Y b c)) := by
  simp only [rotateTree, bound_join, interval_lowered, interval_lifted]
  ac_rfl

/-- A left rotation keeps the bounds right; a right rotation only if the node that moves up and its
outer subtree have the largest end. -/
theorem augmented_rotateTree (ha : Augmented a) (hb : Augmented b) (hc : Augmented c) :
    Augmented (rotateTree s x X a y Y b c) ↔
      (s = .right → max ↑X.interval.stop (max (bound a) (bound b)) ≤
        max ↑Y.interval.stop (bound c)) := by
  have hlow : Augmented (join s x (lowered s X a b) a b) := by
    rw [augmented_join, maxEnd_lowered ha hb, interval_lowered]
    exact ⟨rfl, ha, hb⟩
  rw [rotateTree, augmented_join, interval_lifted]
  cases s with
  | left => exact iff_of_true ⟨maxEnd_refreshed hlow hc, hlow, hc⟩ (by simp)
  | right =>
    have hlifted : ((lifted .right Y (join .right x (lowered .right X a b) a b) c).maxEnd : WithBot T) =
        max ↑Y.interval.stop (bound c) := childMax_eq hc _
    rw [hlifted, bound_join, interval_lowered, max_left_comm, eq_comm, max_eq_right_iff]
    exact ⟨fun h _ => h.1, fun h => ⟨h rfl, hlow, hc⟩⟩

theorem augmented_of_plug (h : Augmented (plug ctx u)) : Augmented u := by
  induction ctx generalizing u with
  | nil => exact h
  | cons f ctx ih => exact (augmented_join.mp (ih h)).2.1

/-- In a tree with right bounds, another focus with the same largest end is right or not by itself. -/
theorem augmented_plug_iff (h : Augmented (plug ctx u)) (hbound : bound u' = bound u) :
    Augmented (plug ctx u') ↔ Augmented u' := by
  induction ctx generalizing u u' with
  | nil => exact Iff.rfl
  | cons f ctx ih =>
    have hframe := augmented_join.mp (augmented_of_plug (u := join f.side f.addr f.value u f.sibling) h)
    have hrest : Augmented (plug ctx (join f.side f.addr f.value u' f.sibling)) ↔
        Augmented (join f.side f.addr f.value u' f.sibling) :=
      ih h (by rw [bound_join, bound_join, hbound])
    refine hrest.trans ?_
    rw [augmented_join, hbound]
    exact ⟨fun h => h.2.1, fun h => ⟨hframe.1, h, hframe.2.2⟩⟩

theorem bound_straighten (s : Side) (p : Frame (NodeData T U)) (u : Tree T U) :
    max ↑(straighten s p u).1.value.interval.stop
        (max (bound (straighten s p u).1.sibling) (bound (straighten s p u).2)) =
      bound (join p.side p.addr p.value u p.sibling) := by
  rw [bound_join]
  cases u with
  | nil => exact congrArg _ (max_comm _ _)
  | node y Y l r =>
    rw [straighten]
    split
    · exact congrArg _ (max_comm _ _)
    · rw [BinTree.node_eq_join s y Y l r]
      simp only [bound_join, interval_lowered, interval_lifted]
      ac_rfl

theorem augmented_straighten (s : Side) (hp : Augmented p.sibling) (hu : Augmented u) :
    Augmented (straighten s p u).1.sibling ∧ Augmented (straighten s p u).2 := by
  cases u with
  | nil => exact ⟨hp, hu⟩
  | node y Y l r =>
    rw [straighten]
    split
    · exact ⟨hp, hu⟩
    · rw [BinTree.node_eq_join s y Y l r, augmented_join] at hu
      refine ⟨hu.2.2, augmented_join.mpr ⟨?_, hp, hu.2.1⟩⟩
      rw [maxEnd_lowered hp hu.2.1, interval_lowered]

/-! ### Insertions -/

/-- Where the fix-up of the focus `u` rotates a grandparent to the right, no end below it is larger
than all those of the node that moves up and its outer subtree. -/
def RotatesSafely : Tree T U → Context T U → Prop
  | u, p :: g :: ctx =>
    if p.value.isRed then
      if isRed g.sibling then
        RotatesSafely (join g.side g.addr (g.value.paint true)
          (join p.side p.addr (p.value.paint false) u p.sibling) (paintRoot false g.sibling)) ctx
      else
        let (q, near) := straighten g.side p u
        g.side = .left → max ↑g.value.interval.stop (max (bound g.sibling) (bound q.sibling)) ≤
          max ↑q.value.interval.stop (bound near)
    else True
  | _, _ => True

/-- **The fix-up** keeps the bounds right exactly if it rotates safely. -/
theorem augmented_fixTree_iff (h : Augmented (plug ctx u)) :
    Augmented (fixTree u ctx) ↔ RotatesSafely u ctx := by
  induction u, ctx using fixTree.induct with
  | case1 u => simpa only [fixTree, RotatesSafely, iff_true, plug] using h
  | case2 u p => simpa only [fixTree, RotatesSafely, iff_true] using h
  | case3 u p g ctx hred huncle ih =>
    rw [fixTree, if_pos hred, if_pos huncle, RotatesSafely, if_pos hred, if_pos huncle]
    refine ih ((augmented_plug_iff (u := join g.side g.addr g.value
      (join p.side p.addr p.value u p.sibling) g.sibling) h ?_).mpr ?_)
    · simp only [bound_join, bound_paintRoot]
      rfl
    · have hold := augmented_of_plug (u := join g.side g.addr g.value
        (join p.side p.addr p.value u p.sibling) g.sibling) h
      simp only [augmented_join, bound_join, bound_paintRoot, augmented_paintRoot] at hold ⊢
      exact hold
  | case4 u p g ctx hred huncle q near hstraight =>
    have hold := augmented_of_plug (u := join g.side g.addr g.value
      (join p.side p.addr p.value u p.sibling) g.sibling) h
    obtain ⟨-, hparent, huncles⟩ := augmented_join.mp hold
    obtain ⟨-, hfocus, hsibling⟩ := augmented_join.mp hparent
    obtain ⟨hq, hnear⟩ := augmented_straighten g.side hsibling hfocus
    have hbound := bound_straighten g.side p u
    rw [hstraight] at hq hnear hbound
    rw [fixTree, if_pos hred, if_neg huncle, RotatesSafely, if_pos hred, if_neg huncle, hstraight,
      augmented_plug_iff (u := join g.side g.addr g.value (join p.side p.addr p.value u p.sibling)
      g.sibling) h, augmented_rotateTree huncles hq hnear]
    · cases g.side <;> simp [Side.other, NodeData.paint]
    · rw [bound_rotateTree, bound_join, bound_join, bound_join, ← hbound, max_comm (bound g.sibling)]
      rfl
  | case5 u p g ctx hblack =>
    rw [fixTree, if_neg hblack, RotatesSafely, if_neg hblack]
    exact iff_of_true h trivial

/-- A node whose bound is raised by the end that comes in below it. -/
theorem augmented_raise {e : T} (h : Augmented (join s x v t w)) (hu : Augmented u)
    (hbound : bound u = max ↑e (bound t)) : Augmented (join s x (v.raise e) u w) ∧
      bound (join s x (v.raise e) u w) = max ↑e (bound (join s x v t w)) := by
  obtain ⟨hv, -, hw⟩ := augmented_join.mp h
  have hraised : ((v.raise e).maxEnd : WithBot T) = max ↑e ↑v.maxEnd := by
    rw [max_comm]
    rfl
  have heq : bound (join s x (v.raise e) u w) = max ↑e (bound (join s x v t w)) := by
    rw [bound_join, bound_join, hbound]
    show max (v.interval.stop : WithBot T) _ = _
    ac_rfl
  refine ⟨augmented_join.mpr ⟨?_, hu, hw⟩, heq⟩
  rw [← bound_join (s := s) (x := x), heq, hraised, hv, bound_join]

theorem augmented_hang (interval : Interval T) (hw : Augmented w) (hwbound : bound w = interval.stop)
    (hu : Augmented u) :
    Augmented (hang interval w u) ∧ bound (hang interval w u) = max ↑interval.stop (bound u) := by
  induction u with
  | nil => exact ⟨hw, hwbound.trans (max_bot_right _).symm⟩
  | node a v l r ihl ihr =>
    rw [hang]
    split
    · obtain ⟨haug, hbound⟩ := ihl hu.2.1
      exact augmented_raise (s := .left) hu haug hbound
    · obtain ⟨haug, hbound⟩ := ihr hu.2.2
      exact augmented_raise (s := .right) hu haug hbound

/-- **One insertion** into a tree with right bounds. -/
theorem augmented_insertTree_iff (hu : Augmented u) (interval : Interval T) (data : U) (a : ℕ) :
    Augmented (insertTree interval data a u) ↔
      RotatesSafely (.node a ⟨interval, data, interval.stop, true⟩ .nil .nil) (path interval u []) := by
  rw [insertTree, augmented_paintRoot]
  refine augmented_fixTree_iff ?_
  rw [plug_path]
  have hleaf : bound (.node a ⟨interval, data, interval.stop, true⟩ .nil .nil) = interval.stop :=
    max_bot_right _
  have haug : Augmented (.node a ⟨interval, data, interval.stop, true⟩ .nil .nil) :=
    ⟨hleaf.symm, trivial, trivial⟩
  exact (augmented_hang interval haug hleaf hu).1

/-- One `insert` call, with enough fuel for the nodes that are there. -/
def insertStep (t : IntervalTree T U) (item : Interval T × U) : Option (IntervalTree T U) :=
  t.insert (t.len + 1) item.1 item.2

/-- Every node that the tree lays out stores the largest end below it. -/
def RightBounds (t : IntervalTree T U) : Prop :=
  ∃ u, Cursor t u [] ∧ Augmented u

/-- The insertion rotates safely in the tree that is laid out. -/
def SafeInsert (t : IntervalTree T U) (item : Interval T × U) : Prop :=
  ∃ u, Cursor t u [] ∧ RotatesSafely (.node t.heap.fresh ⟨item.1, item.2, item.1.stop, true⟩ .nil .nil)
    (path item.1 u [])

/-- A search tree is laid out, and counted. -/
def Laid (t : IntervalTree T U) : Prop :=
  ∃ u, Cursor t u [] ∧ SearchTree u ∧ t.len = u.addrs.length

theorem insertStep_spec {t : IntervalTree T U} (h : Cursor t u []) (hu : SearchTree u)
    (hlen : t.len = u.addrs.length) (item : Interval T × U) :
    ∃ t', insertStep t item = some t' ∧ Cursor t' (insertTree item.1 item.2 t.heap.fresh u) [] ∧
      Laid t' := by
  obtain ⟨t', hinsert, hlen', hcursor⟩ :=
    insert_spec (t.len + 1) h hu.root_black (by omega) item.1 item.2
  obtain ⟨hu', hperm⟩ := hu.insertTree item.1 item.2 t.heap.fresh
  refine ⟨t', hinsert, hcursor, _, hcursor, hu', ?_⟩
  rw [hlen', hlen, ← length_sequence, ← length_sequence, hperm.length_eq, List.length_cons]

theorem isSome_run {t : IntervalTree T U} (h : Laid t) (items : List (Interval T × U)) :
    (Interleaving.run insertStep t items).isSome := by
  induction items generalizing t with
  | nil => rfl
  | cons item items ih =>
    obtain ⟨u, hcursor, hu, hlen⟩ := h
    obtain ⟨t', hstep, -, hlaid⟩ := insertStep_spec hcursor hu hlen item
    rw [Interleaving.run, hstep]
    exact ih hlaid

/-- **The bounds along a run.**  Every sequence of insertions runs through, and the bounds are right
after every one of them exactly if every one rotates safely. -/
theorem always_augmented_iff (items : List (Interval T × U)) :
    (Interleaving.run insertStep (empty : IntervalTree T U) items).isSome ∧
      (Interleaving.Always insertStep RightBounds (empty : IntervalTree T U) items ↔
        Interleaving.Along insertStep SafeInsert (empty : IntervalTree T U) items) := by
  have hempty : Laid (empty : IntervalTree T U) := ⟨_, cursor_empty, searchTree_nil, rfl⟩
  refine ⟨isSome_run hempty items, ?_⟩
  refine Interleaving.always_iff_along (I := Laid) ?_ ?_ hempty ⟨_, cursor_empty, trivial⟩
  · rintro s item t ⟨u, hcursor, hu, hlen⟩ _ _ ht
    obtain ⟨t', hstep, -, hlaid⟩ := insertStep_spec hcursor hu hlen item
    obtain rfl : t' = t := Option.some.inj (hstep.symm.trans ht)
    exact hlaid
  rintro s item t ⟨u, hcursor, hu, hlen⟩ ⟨u₁, hcursor₁, haug⟩ ht
  obtain ⟨t', hstep, hcursor', -⟩ := insertStep_spec hcursor hu hlen item
  obtain rfl : t' = t := Option.some.inj (hstep.symm.trans ht)
  obtain rfl := hcursor₁.unique hcursor
  constructor
  · rintro ⟨u', hcursor₂, haug'⟩
    obtain rfl := hcursor₂.unique hcursor'
    exact ⟨u₁, hcursor₁, (augmented_insertTree_iff haug _ _ _).mp haug'⟩
  · rintro ⟨u', hcursor₂, hsafe⟩
    obtain rfl := hcursor₂.unique hcursor₁
    exact ⟨_, hcursor', (augmented_insertTree_iff haug _ _ _).mpr hsafe⟩

/-- The third insertion rotates the first interval, which ends last, down to the right of the root:
the root stores 21, although an interval below it ends at 100. -/
theorem insert_loses_largest_end :
    (Interleaving.run insertStep (empty : IntervalTree ℤ Char)
      [(⟨30, 100⟩, 'a'), (⟨20, 21⟩, 'b'), (⟨10, 11⟩, 'c')]).bind (fun t => t.root.bind fun root => do
        let n ← t.heap root
        let r ← n.right
        let nr ← t.heap r
        return (n.value.maxEnd, nr.value.interval.stop)) = some (21, 100) := by
  decide +kernel

end IntervalTree
