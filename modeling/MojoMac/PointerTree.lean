/-
Binary trees in a heap, with parent pointers.

A heap maps addresses to cells; a cell has a value, two child pointers and a parent
pointer.  `Owns h par t` says that the heap lays out the tree `t` below the parent
`par`.  Code that walks up and down such a tree and rewires it is followed with a
cursor: a subtree in focus and the frames that lead from it to the root.  `At h t ctx`
says that the heap lays out the focus `t` within the frames `ctx`, all at different
addresses.

* `at_join_iff`, `at_sibling_iff` — moving the cursor;
* `At.mapValue` — rewriting the value of the node in focus;
* `At.rotate` — rewiring the focus by a rotation, `At.graft` — hanging in a new leaf;
* `At.owns`, `addrs_plug_perm` — the whole tree around the cursor.

Left and right are treated alike: `join s a v t u` is the node with `t` on side `s`.
-/
import Mathlib

open List

namespace PointerTree

variable {β : Type*}

inductive Side where
  | left
  | right
deriving DecidableEq, Repr

def Side.other : Side → Side
  | .left => .right
  | .right => .left

@[simp] theorem Side.other_other (s : Side) : s.other.other = s := by
  cases s <;> rfl

variable {s : Side}

theorem Side.eq_other_of_ne {s' : Side} (h : s ≠ s') : s = s'.other := by
  revert h
  cases s <;> cases s' <;> simp [Side.other]

theorem Side.other_ne (s : Side) : s.other ≠ s := by
  cases s <;> decide

/-! ### Cells and heaps -/

structure Cell (β : Type*) where
  value : β
  left : Option ℕ
  right : Option ℕ
  parent : Option ℕ

namespace Cell

def child (n : Cell β) : Side → Option ℕ
  | .left => n.left
  | .right => n.right

def setChild (s : Side) (p : Option ℕ) (n : Cell β) : Cell β :=
  match s with
  | .left => { n with left := p }
  | .right => { n with right := p }

def setParent (p : Option ℕ) (n : Cell β) : Cell β :=
  { n with parent := p }

def mapValue (f : β → β) (n : Cell β) : Cell β :=
  { n with value := f n.value }

/-- The cell with child `p` on side `s` and child `q` on the other side. -/
def make (s : Side) (v : β) (p q par : Option ℕ) : Cell β :=
  match s with
  | .left => ⟨v, p, q, par⟩
  | .right => ⟨v, q, p, par⟩

section make

variable (s : Side) (v : β) (p q r par : Option ℕ)

@[simp] theorem make_value : (make s v p q par).value = v := by
  cases s <;> rfl

@[simp] theorem make_parent : (make s v p q par).parent = par := by
  cases s <;> rfl

@[simp] theorem make_child : (make s v p q par).child s = p := by
  cases s <;> rfl

@[simp] theorem make_child_other : (make s v p q par).child s.other = q := by
  cases s <;> rfl

@[simp] theorem setChild_make : (make s v p q par).setChild s r = make s v r q par := by
  cases s <;> rfl

@[simp] theorem setChild_other_make : (make s v p q par).setChild s.other r = make s v p r par := by
  cases s <;> rfl

@[simp] theorem setParent_make : (make s v p q par).setParent r = make s v p q r := by
  cases s <;> rfl

@[simp] theorem mapValue_make (f : β → β) :
    (make s v p q par).mapValue f = make s (f v) p q par := by
  cases s <;> rfl

theorem make_other : make s.other v p q par = make s v q p par := by
  cases s <;> rfl

end make

end Cell

open Cell (make)

/-- A heap: the cell at address `a` is the `a`-th cell allocated. -/
structure Heap (β : Type*) where
  cells : List (Cell β)

variable {h : Heap β} {a : ℕ} {n : Cell β}

namespace Heap

/-- The cell at an address. -/
def read (h : Heap β) (a : ℕ) : Option (Cell β) :=
  h.cells[a]?

instance : CoeFun (Heap β) (fun _ => ℕ → Option (Cell β)) :=
  ⟨read⟩

/-- Change the cell at an address. -/
def modify (h : Heap β) (a : ℕ) (f : Cell β → Cell β) : Heap β :=
  ⟨h.cells.modify a f⟩

/-- The address of the next cell to be allocated. -/
def fresh (h : Heap β) : ℕ :=
  h.cells.length

/-- Allocate a cell, at the address `fresh`. -/
def alloc (h : Heap β) (n : Cell β) : Heap β :=
  ⟨h.cells ++ [n]⟩

theorem modify_apply (h : Heap β) (a b : ℕ) (f : Cell β → Cell β) :
    h.modify a f b = if b = a then (h b).map f else h b := by
  rw [read, read, modify, getElem?_modify]
  by_cases hab : b = a
  · rw [if_pos hab, hab]
    simp
  · rw [if_neg hab]
    simp [Ne.symm hab]

theorem modify_self (hn : h a = some n) (f : Cell β → Cell β) : h.modify a f a = some (f n) := by
  rw [modify_apply, if_pos rfl, hn, Option.map_some]

theorem modify_of_ne {b : ℕ} (hne : b ≠ a) (f : Cell β → Cell β) : h.modify a f b = h b := by
  rw [modify_apply, if_neg hne]

theorem alloc_fresh (h : Heap β) (n : Cell β) : h.alloc n h.fresh = some n :=
  getElem?_concat_length

theorem alloc_of_lt (ha : a < h.fresh) (n : Cell β) : h.alloc n a = h a :=
  getElem?_append_left ha

/-- Set the parent of the cell that `p` points to, if it points to one. -/
def setParentOf (h : Heap β) (p par : Option ℕ) : Heap β :=
  match p with
  | some a => h.modify a (·.setParent par)
  | none => h

theorem setParentOf_apply (h : Heap β) (p par : Option ℕ) (z : ℕ) :
    h.setParentOf p par z = if p = some z then (h z).map (·.setParent par) else h z := by
  cases p with
  | none => simp [setParentOf]
  | some a =>
    rw [setParentOf, modify_apply]
    exact if_congr (by rw [Option.some_inj, eq_comm]) rfl rfl

theorem lt_fresh (hn : h a = some n) : a < h.fresh :=
  (List.getElem_of_getElem? hn).1

end Heap

/-! ### Trees -/

/-- A binary tree whose nodes carry the address they are stored at. -/
inductive BinTree (β : Type*) where
  | nil
  | node (a : ℕ) (v : β) (l r : BinTree β)

variable {t : BinTree β}

namespace BinTree

/-- The pointer to the root. -/
def ptr : BinTree β → Option ℕ
  | nil => none
  | node a _ _ _ => some a

def addrs : BinTree β → List ℕ
  | nil => []
  | node a _ l r => a :: (l.addrs ++ r.addrs)

def values : BinTree β → List β
  | nil => []
  | node _ v l r => v :: (l.values ++ r.values)

/-- The node with `t` on side `s` and `u` on the other side. -/
def join (s : Side) (a : ℕ) (v : β) (t u : BinTree β) : BinTree β :=
  match s with
  | .left => node a v t u
  | .right => node a v u t

@[simp] theorem ptr_join (s : Side) (a : ℕ) (v : β) (t u : BinTree β) :
    (join s a v t u).ptr = some a := by
  cases s <;> rfl

theorem join_other (s : Side) (a : ℕ) (v : β) (t u : BinTree β) :
    join s.other a v t u = join s a v u t := by
  cases s <;> rfl

theorem addrs_join_perm (s : Side) (a : ℕ) (v : β) (t u : BinTree β) :
    (join s a v t u).addrs.Perm (a :: (t.addrs ++ u.addrs)) := by
  cases s
  · exact .refl _
  · exact perm_append_comm.cons a

theorem addrs_join_join_perm (s : Side) (x y : ℕ) (X Y : β) (t b c : BinTree β) :
    (join s x X t (join s y Y b c)).addrs.Perm (x :: y :: (t.addrs ++ (b.addrs ++ c.addrs))) :=
  (addrs_join_perm s x X t _).trans
    ((((addrs_join_perm s y Y b c).append_left _).trans perm_middle).cons x)

/-- The subtree on a side. -/
def pick (s : Side) (l r : BinTree β) : BinTree β :=
  match s with
  | .left => l
  | .right => r

theorem node_eq_join (s : Side) (a : ℕ) (v : β) (l r : BinTree β) :
    node a v l r = join s a v (pick s l r) (pick s.other l r) := by
  cases s <;> rfl

theorem mem_addrs_of_ptr (h : t.ptr = some a) : a ∈ t.addrs := by
  cases t with
  | nil => simp [ptr] at h
  | node b v l r =>
    obtain rfl : b = a := Option.some.inj h
    exact mem_cons_self

theorem length_values (t : BinTree β) : t.values.length = t.addrs.length := by
  induction t with
  | nil => rfl
  | node a v l r ihl ihr => simp [values, addrs, ihl, ihr]

end BinTree

open BinTree (join)

/-- The heap lays out the tree below the parent `par`. -/
def Owns (h : Heap β) : Option ℕ → BinTree β → Prop
  | _, .nil => True
  | par, .node a v l r =>
    h a = some ⟨v, l.ptr, r.ptr, par⟩ ∧ Owns h (some a) l ∧ Owns h (some a) r

variable {par : Option ℕ}

theorem owns_join {v : β} {u : BinTree β} : Owns h par (join s a v t u) ↔
      h a = some (make s v t.ptr u.ptr par) ∧ Owns h (some a) t ∧ Owns h (some a) u := by
  cases s
  · exact Iff.rfl
  · exact and_congr Iff.rfl and_comm

variable {h' : Heap β}

theorem Owns.congr (hown : Owns h par t) (heq : ∀ a ∈ t.addrs, h' a = h a) : Owns h' par t := by
  induction t generalizing par with
  | nil => trivial
  | node a v l r ihl ihr =>
    obtain ⟨hcell, hl, hr⟩ := hown
    refine ⟨?_, ihl hl ?_, ihr hr ?_⟩
    · rw [heq a mem_cons_self, hcell]
    · intro b hb
      exact heq b (mem_cons_of_mem a (mem_append_left _ hb))
    · intro b hb
      exact heq b (mem_cons_of_mem a (mem_append_right _ hb))

/-- A tree is hung below another parent by writing the parent pointer of its root. -/
theorem Owns.reparent {par' : Option ℕ} (hown : Owns h par t)
    (hnodup : t.addrs.Nodup) (hroot : ∀ a, t.ptr = some a → h' a = (h a).map (·.setParent par'))
    (heq : ∀ a ∈ t.addrs, t.ptr ≠ some a → h' a = h a) : Owns h' par' t := by
  cases t with
  | nil => trivial
  | node a v l r =>
    obtain ⟨hcell, hl, hr⟩ := hown
    have hne : ∀ b ∈ l.addrs ++ r.addrs, (BinTree.node a v l r).ptr ≠ some b := by
      rintro b hb ⟨⟩
      exact (nodup_cons.mp hnodup).1 hb
    refine ⟨?_, hl.congr ?_, hr.congr ?_⟩
    · rw [hroot a rfl, hcell]
      rfl
    · intro b hb
      have hb' := mem_append_left r.addrs hb
      exact heq b (mem_cons_of_mem a hb') (hne b hb')
    · intro b hb
      have hb' := mem_append_right l.addrs hb
      exact heq b (mem_cons_of_mem a hb') (hne b hb')

/-- A heap lays out one tree below a pointer. -/
theorem Owns.unique {par' : Option ℕ} {t' : BinTree β} (ht : Owns h par t)
    (ht' : Owns h par' t') (hptr : t.ptr = t'.ptr) : t = t' := by
  induction t generalizing par par' t' with
  | nil =>
    cases t' with
    | nil => rfl
    | node b w l' r' => cases hptr
  | node a v l r ihl ihr =>
    cases t' with
    | nil => cases hptr
    | node b w l' r' =>
      obtain rfl : a = b := Option.some.inj hptr
      obtain ⟨hcell, hl, hr⟩ := ht
      obtain ⟨hcell', hl', hr'⟩ := ht'
      obtain ⟨hv, hlptr, hrptr, -⟩ := Cell.mk.inj (Option.some.inj (hcell.symm.trans hcell'))
      rw [hv, ihl hl hl' hlptr, ihr hr hr' hrptr]

theorem Owns.lt_fresh (hown : Owns h par t) : ∀ a ∈ t.addrs, a < h.fresh := by
  induction t generalizing par with
  | nil => simp [BinTree.addrs]
  | node b v l r ihl ihr =>
    obtain ⟨hcell, hl, hr⟩ := hown
    intro a ha
    rw [BinTree.addrs, mem_cons, mem_append] at ha
    rcases ha with rfl | ha | ha
    · exact Heap.lt_fresh hcell
    · exact ihl hl a ha
    · exact ihr hr a ha

/-! ### The cursor -/

/-- A node above the cursor: the cursor is below it on `side`, `sibling` on the other side. -/
structure Frame (β : Type*) where
  side : Side
  addr : ℕ
  value : β
  sibling : BinTree β

/-- The whole tree around a focus. -/
def plug : List (Frame β) → BinTree β → BinTree β
  | [], t => t
  | f :: ctx, t => plug ctx (join f.side f.addr f.value t f.sibling)

/-- The pointer to the parent of the focus. -/
def up : List (Frame β) → Option ℕ
  | [] => none
  | f :: _ => some f.addr

def frameAddrs : List (Frame β) → List ℕ
  | [] => []
  | f :: ctx => f.addr :: (f.sibling.addrs ++ frameAddrs ctx)

variable {ctx : List (Frame β)}

theorem mem_frameAddrs_of_up (h : up ctx = some a) : a ∈ frameAddrs ctx := by
  cases ctx with
  | nil => simp [up] at h
  | cons f ctx =>
    obtain rfl : f.addr = a := Option.some.inj h
    exact mem_cons_self

theorem addrs_plug_perm (ctx : List (Frame β)) (t : BinTree β) :
    (plug ctx t).addrs.Perm (t.addrs ++ frameAddrs ctx) := by
  induction ctx generalizing t with
  | nil => simp [plug, frameAddrs]
  | cons f ctx ih =>
    refine (ih _).trans ?_
    refine ((BinTree.addrs_join_perm _ _ _ _ _).append_right _).trans ?_
    rw [frameAddrs, cons_append, append_assoc]
    exact perm_middle.symm

/-- Below at least one frame, the root does not depend on the focus. -/
theorem ptr_plug_cons (f : Frame β) (ctx : List (Frame β)) (t u : BinTree β) :
    (plug (f :: ctx) t).ptr = (plug (f :: ctx) u).ptr := by
  induction ctx generalizing f t u with
  | nil => simp [plug]
  | cons g ctx ih => exact ih g _ _

/-- Below at least one frame, the root is one of the frames' addresses. -/
theorem ptr_plug_cons_mem (f : Frame β) (ctx : List (Frame β)) (t : BinTree β) :
    ∃ z ∈ frameAddrs (f :: ctx), (plug (f :: ctx) t).ptr = some z := by
  induction ctx generalizing f t with
  | nil => exact ⟨f.addr, mem_cons_self, BinTree.ptr_join _ _ _ _ _⟩
  | cons g ctx ih =>
    obtain ⟨z, hz, hptr⟩ := ih g (join f.side f.addr f.value t f.sibling)
    exact ⟨z, mem_cons_of_mem _ (mem_append_right _ hz), hptr⟩

/-- The heap lays out the frames around a focus that the pointer `p` points to. -/
def Encloses (h : Heap β) : Option ℕ → List (Frame β) → Prop
  | _, [] => True
  | p, f :: ctx =>
    h f.addr = some (make f.side f.value p f.sibling.ptr (up ctx)) ∧
      Owns h (some f.addr) f.sibling ∧ Encloses h (some f.addr) ctx

theorem Encloses.congr {p : Option ℕ}
    (hctx : Encloses h p ctx) (heq : ∀ a ∈ frameAddrs ctx, h' a = h a) : Encloses h' p ctx := by
  induction ctx generalizing p with
  | nil => trivial
  | cons f ctx ih =>
    obtain ⟨hcell, hsib, hrest⟩ := hctx
    refine ⟨?_, hsib.congr ?_, ih hrest ?_⟩
    · rw [heq _ mem_cons_self, hcell]
    · intro b hb
      exact heq b (mem_cons_of_mem _ (mem_append_left _ hb))
    · intro b hb
      exact heq b (mem_cons_of_mem _ (mem_append_right _ hb))

/-- Another focus is hung in by writing one child pointer of the nearest frame. -/
theorem Encloses.relink {p p' : Option ℕ}
    (hctx : Encloses h p ctx) (hnodup : (frameAddrs ctx).Nodup)
    (hlink : ∀ f rest, ctx = f :: rest → h' f.addr = (h f.addr).map (·.setChild f.side p'))
    (heq : ∀ a ∈ frameAddrs ctx, up ctx ≠ some a → h' a = h a) : Encloses h' p' ctx := by
  cases ctx with
  | nil => trivial
  | cons f ctx =>
    obtain ⟨hcell, hsib, hrest⟩ := hctx
    have hne : ∀ b ∈ f.sibling.addrs ++ frameAddrs ctx, up (f :: ctx) ≠ some b := by
      rintro b hb ⟨⟩
      exact (nodup_cons.mp hnodup).1 hb
    refine ⟨?_, hsib.congr ?_, hrest.congr ?_⟩
    · rw [hlink f ctx rfl, hcell, Option.map_some, Cell.setChild_make]
    · intro b hb
      have hb' := mem_append_left (frameAddrs ctx) hb
      exact heq b (mem_cons_of_mem _ hb') (hne b hb')
    · intro b hb
      have hb' := mem_append_right f.sibling.addrs hb
      exact heq b (mem_cons_of_mem _ hb') (hne b hb')

/-- Set the child pointer of the nearest frame. -/
def Heap.setChildBelow (h : Heap β) (ctx : List (Frame β)) (p : Option ℕ) : Heap β :=
  match ctx with
  | [] => h
  | f :: _ => h.modify f.addr (·.setChild f.side p)

theorem Heap.setChildBelow_of_ne (h : Heap β) (p : Option ℕ) {z : ℕ}
    (hz : up ctx ≠ some z) : h.setChildBelow ctx p z = h z := by
  cases ctx with
  | nil => rfl
  | cons f ctx =>
    refine Heap.modify_of_ne ?_ _
    rintro rfl
    exact hz rfl

/-- The heap lays out the focus `t` within the frames `ctx`, without sharing. -/
structure At (h : Heap β) (t : BinTree β) (ctx : List (Frame β)) : Prop where
  focus : Owns h (up ctx) t
  context : Encloses h t.ptr ctx
  nodup : (t.addrs ++ frameAddrs ctx).Nodup

theorem At.owns_iff : Owns h none (plug ctx t) ↔ Owns h (up ctx) t ∧ Encloses h t.ptr ctx := by
  induction ctx generalizing t with
  | nil => simp [plug, up, Encloses]
  | cons f ctx ih =>
    rw [plug, ih, owns_join, BinTree.ptr_join]
    simp only [up, Encloses]
    tauto

section rules

variable {x y : ℕ} {v X Y : β}
  {u b c : BinTree β}

theorem At.owns (hat : At h t ctx) : Owns h none (plug ctx t) :=
  At.owns_iff.mpr ⟨hat.focus, hat.context⟩

theorem At.nodup_plug (hat : At h t ctx) : (plug ctx t).addrs.Nodup :=
  (addrs_plug_perm ctx t).nodup_iff.mpr hat.nodup

theorem at_of_owns (hown : Owns h none (plug ctx t)) (hnodup : (plug ctx t).addrs.Nodup) :
    At h t ctx := by
  obtain ⟨hfocus, hcontext⟩ := At.owns_iff.mp hown
  exact ⟨hfocus, hcontext, (addrs_plug_perm ctx t).nodup_iff.mp hnodup⟩

theorem at_iff : At h t ctx ↔ Owns h none (plug ctx t) ∧ (plug ctx t).addrs.Nodup :=
  ⟨fun hat => ⟨hat.owns, hat.nodup_plug⟩, fun hboth => at_of_owns hboth.1 hboth.2⟩

/-- The cursor moves between a node and its child on side `s`. -/
theorem at_join_iff : At h (join s a v t u) ctx ↔ At h t (⟨s, a, v, u⟩ :: ctx) := by
  rw [at_iff, at_iff]
  rfl

/-- The cursor moves between the two children of a node. -/
theorem at_sibling_iff : At h t (⟨s, a, v, u⟩ :: ctx) ↔ At h u (⟨s.other, a, v, t⟩ :: ctx) := by
  rw [← at_join_iff, ← at_join_iff, BinTree.join_other]

/-- What the node in focus looks like in the heap. -/
theorem At.cell (hat : At h (join s a v t u) ctx) : h a = some (make s v t.ptr u.ptr (up ctx)) :=
  (owns_join.mp hat.focus).1

/-- What the parent of the focus looks like in the heap. -/
theorem At.cell_up {f : Frame β} (hat : At h t (f :: ctx)) :
    h f.addr = some (make f.side f.value t.ptr f.sibling.ptr (up ctx)) :=
  hat.context.1

theorem At.congr (hat : At h t ctx) (heq : ∀ z ∈ t.addrs ++ frameAddrs ctx, h' z = h z) :
    At h' t ctx :=
  ⟨hat.focus.congr (fun z hz => heq z (mem_append_left _ hz)),
    hat.context.congr (fun z hz => heq z (mem_append_right _ hz)), hat.nodup⟩

/-- The value of the node in focus is rewritten. -/
theorem At.mapValue (hat : At h (join s a v t u) ctx) (f : β → β) :
    At (h.modify a (·.mapValue f)) (join s a (f v) t u) ctx := by
  have hperm := BinTree.addrs_join_perm s a v t u
  have hnodup : (a :: (t.addrs ++ u.addrs) ++ frameAddrs ctx).Nodup :=
    (hperm.append_right _).nodup_iff.mp hat.nodup
  obtain ⟨ha, _⟩ := nodup_cons.mp hnodup
  have hsame : ∀ z ∈ t.addrs ++ u.addrs ++ frameAddrs ctx, h.modify a (·.mapValue f) z = h z := by
    intro z hz
    exact Heap.modify_of_ne (ne_of_mem_of_not_mem hz ha) _
  obtain ⟨hcell, ht, hu⟩ := owns_join.mp hat.focus
  refine ⟨owns_join.mpr ⟨?_, ht.congr ?_, hu.congr ?_⟩, ?_, ?_⟩
  · rw [Heap.modify_self hcell, Cell.mapValue_make]
  · intro z hz
    exact hsame z (mem_append_left _ (mem_append_left _ hz))
  · intro z hz
    exact hsame z (mem_append_left _ (mem_append_right _ hz))
  · rw [BinTree.ptr_join, ← BinTree.ptr_join s a v t u]
    exact hat.context.congr (fun z hz => hsame z (mem_append_right _ hz))
  · exact (((BinTree.addrs_join_perm s a (f v) t u).trans hperm.symm).append_right _).nodup_iff.mpr
      hat.nodup

section

variable (hat : At h (join s x X t (join s y Y b c)) ctx)

include hat

theorem At.nodup_join_join :
    (x :: y :: (t.addrs ++ (b.addrs ++ c.addrs)) ++ frameAddrs ctx).Nodup :=
  ((BinTree.addrs_join_join_perm s x y X Y t b c).append_right _).nodup_iff.mp hat.nodup

/-- A rotation towards side `s`: the node `y`, the child of `x` on the other side, takes the place
of `x`, and `b` changes over from `y` to `x`. -/
theorem At.rotate (hx : h' x = some (make s X t.ptr b.ptr (some y)))
    (hy : h' y = some (make s Y (some x) c.ptr (up ctx)))
    (hb : ∀ z, b.ptr = some z → h' z = (h z).map (·.setParent (some x)))
    (hlink : ∀ f rest, ctx = f :: rest → h' f.addr = (h f.addr).map (·.setChild f.side (some y)))
    (hsame : ∀ z, z ≠ x → z ≠ y → b.ptr ≠ some z → up ctx ≠ some z → h' z = h z) :
    At h' (join s y Y (join s x X t b) c) ctx := by
  have hperm' : (join s y Y (join s x X t b) c).addrs.Perm
      (x :: y :: (t.addrs ++ (b.addrs ++ c.addrs))) := by
    refine (BinTree.addrs_join_perm s y Y _ c).trans ?_
    refine (((BinTree.addrs_join_perm s x X t b).append_right _).cons y).trans ?_
    rw [cons_append, append_assoc]
    exact Perm.swap _ _ _
  have hnodup := hat.nodup_join_join
  obtain ⟨hcellx, ht, hinner⟩ := owns_join.mp hat.focus
  obtain ⟨hcelly, hbown, hc⟩ := owns_join.mp hinner
  simp only [cons_append, append_assoc, nodup_cons, nodup_append, mem_cons,
    mem_append, not_or] at hnodup
  obtain ⟨⟨hxy, hxt, hxb, hxc, hxctx⟩, ⟨hyt, hyb, hyc, hyctx⟩, hnt, ⟨hnb, ⟨hnc, hnctx, hcctx⟩, hbrest⟩,
    htrest⟩ := hnodup
  -- the four kinds of address that may change are not among the other trees
  refine ⟨owns_join.mpr ⟨?_, owns_join.mpr ⟨?_, ?_, ?_⟩, ?_⟩, ?_, ?_⟩
  · rw [hy, BinTree.ptr_join]
  · rw [hx]
  · refine ht.congr (fun z hz => hsame z ?_ ?_ ?_ ?_)
    · exact ne_of_mem_of_not_mem hz hxt
    · exact ne_of_mem_of_not_mem hz hyt
    · exact fun hzb => htrest z hz z (.inl (BinTree.mem_addrs_of_ptr hzb)) rfl
    · exact fun hzup => htrest z hz z (.inr (.inr (mem_frameAddrs_of_up hzup))) rfl
  · refine hbown.reparent hnb hb (fun z hz hroot => hsame z ?_ ?_ hroot ?_)
    · exact ne_of_mem_of_not_mem hz hxb
    · exact ne_of_mem_of_not_mem hz hyb
    · exact fun hzup => hbrest z hz z (.inr (mem_frameAddrs_of_up hzup)) rfl
  · refine hc.congr (fun z hz => hsame z ?_ ?_ ?_ ?_)
    · exact ne_of_mem_of_not_mem hz hxc
    · exact ne_of_mem_of_not_mem hz hyc
    · exact fun hzb => hbrest z (BinTree.mem_addrs_of_ptr hzb) z (.inl hz) rfl
    · exact fun hzup => hcctx z hz z (mem_frameAddrs_of_up hzup) rfl
  · rw [BinTree.ptr_join]
    refine hat.context.relink hnctx hlink (fun z hz hzup => hsame z ?_ ?_ ?_ hzup)
    · exact ne_of_mem_of_not_mem hz hxctx
    · exact ne_of_mem_of_not_mem hz hyctx
    · exact fun hzb => hbrest z (BinTree.mem_addrs_of_ptr hzb) z (.inr hz) rfl
  · exact ((hperm'.trans (BinTree.addrs_join_join_perm s x y X Y t b c).symm).append_right _).nodup_iff.mpr hat.nodup

/-- The addresses a rotation touches are different. -/
theorem At.rotate_ne : x ≠ y ∧ (∀ z, b.ptr = some z → z ≠ x ∧ z ≠ y ∧ up ctx ≠ some z) ∧
      up ctx ≠ some x ∧ up ctx ≠ some y ∧ ∀ f ∈ ctx.head?, f.addr ≠ x ∧ f.addr ≠ y ∧
        b.ptr ≠ some f.addr ∧ f.sibling.ptr ≠ some x := by
  have hnodup := hat.nodup_join_join
  simp only [cons_append, append_assoc, nodup_cons, nodup_append, mem_cons,
    mem_append, not_or] at hnodup
  obtain ⟨⟨hxy, _, hxb, _, hxctx⟩, ⟨_, hyb, _, hyctx⟩, _, ⟨_, _, hbrest⟩, _⟩ := hnodup
  refine ⟨hxy, ?_, mt mem_frameAddrs_of_up hxctx, mt mem_frameAddrs_of_up hyctx, ?_⟩
  · intro z hz
    have hzb := BinTree.mem_addrs_of_ptr hz
    refine ⟨ne_of_mem_of_not_mem hzb hxb, ne_of_mem_of_not_mem hzb hyb, fun hzup => ?_⟩
    exact hbrest z hzb z (.inr (mem_frameAddrs_of_up hzup)) rfl
  · intro f hf
    obtain ⟨rest, rfl⟩ := head?_eq_some_iff.mp hf
    refine ⟨ne_of_mem_of_not_mem mem_cons_self hxctx, ne_of_mem_of_not_mem mem_cons_self hyctx,
      fun hfb => ?_, fun hsib => ?_⟩
    · exact hbrest _ (BinTree.mem_addrs_of_ptr hfb) _ (.inr mem_cons_self) rfl
    · exact hxctx (mem_cons_of_mem _ (mem_append_left _ (BinTree.mem_addrs_of_ptr hsib)))

end

/-- A new leaf is hung in at an empty focus. -/
theorem At.graft (hat : At h .nil ctx) (hfresh : a ∉ frameAddrs ctx)
    (hnew : h' a = some ⟨v, none, none, up ctx⟩)
    (hlink : ∀ f rest, ctx = f :: rest → h' f.addr = (h f.addr).map (·.setChild f.side (some a)))
    (hsame : ∀ z, z ≠ a → up ctx ≠ some z → h' z = h z) : At h' (.node a v .nil .nil) ctx := by
  have hnodup : (frameAddrs ctx).Nodup := hat.nodup
  refine ⟨⟨hnew, trivial, trivial⟩, ?_, nodup_cons.mpr ⟨hfresh, hnodup⟩⟩
  exact hat.context.relink hnodup hlink
    fun z hz hzup => hsame z (ne_of_mem_of_not_mem hz hfresh) hzup

end rules

end PointerTree
