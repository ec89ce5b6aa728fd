/-
The red-black search tree that insertion keeps.

`insertTree` hangs the new node in below the last node of its descent (`hang`) and repairs the
colours on the way up.  Rotations leave the entries in their order, and a round of the fix-up loop
moves the only red node with a red parent two levels up, or removes it.

* `sequence` — the entries in order, `sequence_fixTree`: the fix-up does not change it;
* `RedBlack u n` — a red-black tree of black height `n`, `Fits n ctx`: frames that take one;
* `insertAll_searchTree` — after any insertions the tree is a red-black search tree.
-/
import MojoMac.IntervalTreeShape

open PointerTree List
open PointerTree.BinTree (join)

namespace IntervalTree

variable {T U : Type} {s : Side} {a : ℕ} {v v' : NodeData T U} {t t' u u' : Tree T U}
  {p : Frame (NodeData T U)} {ctx : Context T U}

/-! ### The entries in order -/

/-- What a node stores for its user. -/
def NodeData.entry (v : NodeData T U) : Interval T × U :=
  (v.interval, v.data)

def entries (u : Tree T U) : List (Interval T × U) :=
  u.values.map NodeData.entry

/-- The entries from left to right. -/
def sequence : Tree T U → List (Interval T × U)
  | .nil => []
  | .node _ v l r => sequence l ++ v.entry :: sequence r

theorem entries_perm_sequence (u : Tree T U) : (entries u).Perm (sequence u) := by
  induction u with
  | nil => exact .refl _
  | node a v l r ihl ihr =>
    rw [entries, BinTree.values, map_cons, map_append]
    exact ((ihl.append ihr).cons _).trans perm_middle.symm

theorem length_sequence (u : Tree T U) : (sequence u).length = u.addrs.length := by
  rw [← (entries_perm_sequence u).length_eq, entries, length_map, BinTree.length_values]

theorem entry_paint (red : Bool) (v : NodeData T U) : (v.paint red).entry = v.entry := rfl

theorem sequence_join_congr (s : Side) (a a' : ℕ) (hv : v.entry = v'.entry)
    (ht : sequence t = sequence t') (hu : sequence u = sequence u') :
    sequence (join s a v t u) = sequence (join s a' v' t' u') := by
  cases s <;> simp [join, sequence, hv, ht, hu]

theorem sequence_plug_congr (h : sequence u = sequence u') (ctx : Context T U) :
    sequence (plug ctx u) = sequence (plug ctx u') := by
  induction ctx generalizing u u' with
  | nil => exact h
  | cons f ctx ih => exact ih (sequence_join_congr _ _ _ rfl h rfl)

@[simp] theorem sequence_paintRoot (red : Bool) (u : Tree T U) :
    sequence (paintRoot red u) = sequence u := by
  cases u <;> rfl

@[simp] theorem isRed_join : isRed (join s a v t u) = v.isRed := by
  cases s <;> rfl

@[simp] theorem isRed_paintRoot (u : Tree T U) : isRed (paintRoot false u) = false := by
  cases u <;> rfl

theorem cursor_empty : Cursor (empty : IntervalTree T U) .nil [] :=
  ⟨⟨trivial, trivial, nodup_nil⟩, rfl⟩

theorem Cursor.unique {t : IntervalTree T U} (h : Cursor t u []) (h' : Cursor t u' []) : u = u' :=
  h.focus.unique h'.focus (h.root.symm.trans h'.root)

variable [LinearOrder T]

@[simp] theorem entry_raise (e : T) (v : NodeData T U) : (v.raise e).entry = v.entry := rfl

theorem entry_lowered (s : Side) (v : NodeData T U) (u w : Tree T U) :
    (lowered s v u w).entry = v.entry := by
  cases s <;> rfl

theorem entry_lifted (s : Side) (v : NodeData T U) (u w : Tree T U) :
    (lifted s v u w).entry = v.entry := by
  cases s <;> rfl

theorem sequence_rotateTree (s : Side) (x y : ℕ) (X Y : NodeData T U) (a b c : Tree T U) :
    sequence (rotateTree s x X a y Y b c) = sequence (join s x X a (join s y Y b c)) := by
  cases s <;> simp [rotateTree, join, sequence, entry_lowered, entry_lifted]

theorem sequence_straighten (s : Side) (p : Frame (NodeData T U)) (hu : ∃ z, u.ptr = some z) (a : ℕ) :
    sequence (join s a (straighten s p u).1.value (straighten s p u).2 (straighten s p u).1.sibling) =
      sequence (join p.side p.addr p.value u p.sibling) := by
  cases u with
  | nil => simp [BinTree.ptr] at hu
  | node y Y l r =>
    by_cases hp : p.side = s
    · rw [straighten, if_pos hp, hp]
      exact sequence_join_congr s a p.addr rfl rfl rfl
    · rw [straighten, if_neg hp, Side.eq_other_of_ne hp, BinTree.join_other,
        BinTree.node_eq_join s y Y l r, ← sequence_rotateTree]
      exact sequence_join_congr s a y rfl rfl rfl

/-- Fixing up moves nodes around but keeps the order of the entries. -/
theorem sequence_fixTree (hu : ∃ z, u.ptr = some z) (ctx : Context T U) :
    sequence (fixTree u ctx) = sequence (plug ctx u) := by
  induction u, ctx using fixTree.induct with
  | case1 u => simp only [fixTree, plug]
  | case2 u p => simp only [fixTree]
  | case3 u p g ctx hred huncle ih =>
    rw [fixTree, if_pos hred, if_pos huncle, ih ⟨g.addr, BinTree.ptr_join _ _ _ _ _⟩]
    refine sequence_plug_congr (sequence_join_congr _ _ _ (entry_paint _ _) ?_ ?_) ctx
    · exact sequence_join_congr _ _ _ (entry_paint _ _) rfl rfl
    · exact sequence_paintRoot _ _
  | case4 u p g ctx hred huncle q near hstraight =>
    rw [fixTree, if_pos hred, if_neg huncle, hstraight]
    refine sequence_plug_congr ?_ ctx
    rw [sequence_rotateTree, BinTree.join_other, BinTree.join_other]
    refine sequence_join_congr _ _ _ (entry_paint _ _) ?_ rfl
    have hstraightened := sequence_straighten g.side p hu q.addr
    rw [hstraight] at hstraightened
    exact (sequence_join_congr _ _ _ (entry_paint _ _) rfl rfl).trans hstraightened
  | case5 u p g ctx hblack =>
    rw [fixTree, if_neg hblack]

/-- Where the new tree goes: behind everything that starts no later, before the rest. -/
theorem sequence_hang (interval : Interval T) (w : Tree T U)
    (hsorted : (sequence u).Pairwise fun e e' => e.1.start ≤ e'.1.start) :
    ∃ before after, sequence u = before ++ after ∧
      sequence (hang interval w u) = before ++ sequence w ++ after ∧
      (∀ e ∈ before, e.1.start ≤ interval.start) ∧ ∀ e ∈ after, interval.start ≤ e.1.start := by
  induction u with
  | nil => exact ⟨[], [], rfl, by simp [hang], by simp, by simp⟩
  | node a v l r ihl ihr =>
    obtain ⟨hl, hvr, hlr⟩ := pairwise_append.mp hsorted
    obtain ⟨hv, hr⟩ := pairwise_cons.mp hvr
    rw [hang]
    split
    case isTrue hlt =>
      have hlt : interval.start < v.interval.start := by simpa [Interval.lt] using hlt
      obtain ⟨before, after, heq, hhang, hbefore, hafter⟩ := ihl hl
      refine ⟨before, after ++ v.entry :: sequence r, by simp [sequence, heq], by simp [sequence, hhang],
        hbefore, fun e he => ?_⟩
      rcases mem_append.mp he with he | he
      · exact hafter e he
      · rcases mem_cons.mp he with rfl | he
        · exact hlt.le
        · exact hlt.le.trans (hv e he)
    case isFalse hge =>
      have hge : v.interval.start ≤ interval.start := by simpa [Interval.lt] using hge
      obtain ⟨before, after, heq, hhang, hbefore, hafter⟩ := ihr hr
      refine ⟨sequence l ++ v.entry :: before, after, by simp [sequence, heq], by simp [sequence, hhang],
        fun e he => ?_, hafter⟩
      rcases mem_append.mp he with he | he
      · exact (hlr e he _ mem_cons_self).trans hge
      · rcases mem_cons.mp he with rfl | he
        · exact hge
        · exact hbefore e he

/-! ### Colours -/

/-- A red-black tree with `n` black nodes on every way from the root to an absent child. -/
inductive RedBlack : Tree T U → ℕ → Prop
  | nil : RedBlack .nil 0
  | red {a : ℕ} {v : NodeData T U} {l r : Tree T U} {n : ℕ} (hv : v.isRed = true)
      (hl : isRed l = false) (hr : isRed r = false) :
      RedBlack l n → RedBlack r n → RedBlack (.node a v l r) n
  | black {a : ℕ} {v : NodeData T U} {l r : Tree T U} {n : ℕ} (hv : v.isRed = false) :
      RedBlack l n → RedBlack r n → RedBlack (.node a v l r) (n + 1)

/-- The frames make a red-black tree of one with black height `n`, if its root is black or the
nearest frame is. -/
def Fits : ℕ → Context T U → Prop
  | _, [] => True
  | n, f :: ctx => RedBlack f.sibling n ∧
    if f.value.isRed then
      isRed f.sibling = false ∧ (∀ g ∈ ctx.head?, g.value.isRed = false) ∧ Fits n ctx
    else Fits (n + 1) ctx

section colours

omit [LinearOrder T]

variable {n : ℕ}

theorem RedBlack.join_red (s : Side) (a : ℕ) (hv : v.isRed = true) (ht : isRed t = false)
    (hu : isRed u = false) (h : RedBlack t n) (h' : RedBlack u n) : RedBlack (join s a v t u) n := by
  cases s with
  | left => exact .red hv ht hu h h'
  | right => exact .red hv hu ht h' h

theorem RedBlack.join_black (s : Side) (a : ℕ) (hv : v.isRed = false) (h : RedBlack t n)
    (h' : RedBlack u n) : RedBlack (join s a v t u) (n + 1) := by
  cases s with
  | left => exact .black hv h h'
  | right => exact .black hv h' h

theorem RedBlack.blacken_red (h : RedBlack u n) (hred : isRed u = true) :
    RedBlack (paintRoot false u) (n + 1) := by
  cases h with
  | nil => cases hred
  | red hv hl hr h h' => exact .black rfl h h'
  | black hv h h' => exact absurd hred (by simp [isRed, hv])

theorem RedBlack.blacken (h : RedBlack u n) : ∃ m, RedBlack (paintRoot false u) m := by
  cases h with
  | nil => exact ⟨0, .nil⟩
  | red hv hl hr h h' | black hv h h' => exact ⟨_, .black rfl h h'⟩

theorem RedBlack.plugged (h : RedBlack u n) (hctx : Fits n ctx)
    (hroot : ∀ f ∈ ctx.head?, f.value.isRed = true → isRed u = false) :
    ∃ m, RedBlack (plug ctx u) m := by
  induction ctx generalizing u n with
  | nil => exact ⟨n, h⟩
  | cons f ctx ih =>
    by_cases hf : f.value.isRed = true
    · rw [Fits, if_pos hf] at hctx
      obtain ⟨hsibling, hblack, hhead, hrest⟩ := hctx
      refine ih (h.join_red _ _ hf (hroot f rfl hf) hblack hsibling) hrest fun g hg hgred => ?_
      exact absurd hgred (by simp [hhead g hg])
    · rw [Fits, if_neg hf] at hctx
      rw [Bool.not_eq_true] at hf
      refine ih (h.join_black _ _ hf hctx.1) hctx.2 fun g _ _ => ?_
      rw [isRed_join, hf]

end colours

theorem isRed_lowered (s : Side) (v : NodeData T U) (u w : Tree T U) :
    (lowered s v u w).isRed = v.isRed := by
  cases s <;> rfl

theorem isRed_lifted (s : Side) (v : NodeData T U) (u w : Tree T U) :
    (lifted s v u w).isRed = v.isRed := by
  cases s <;> rfl

/-- After case 2 the parts around the red parent have the black height of the focus. -/
theorem RedBlack.straightened {n : ℕ} (h : RedBlack u n) (hred : isRed u = true) (s : Side)
    (hp : p.value.isRed = true) (hsibling : RedBlack p.sibling n) (hblack : isRed p.sibling = false) :
    RedBlack (straighten s p u).2 n ∧ RedBlack (straighten s p u).1.sibling n ∧
      isRed (straighten s p u).1.sibling = false := by
  cases h with
  | nil => cases hred
  | black hv h h' => exact absurd hred (by simp [isRed, hv])
  | @red y Y l r n hv hl hr h h' =>
    rw [straighten]
    split
    · exact ⟨.red hv hl hr h h', hsibling, hblack⟩
    have hlowered : (lowered s p.value p.sibling (BinTree.pick s l r)).isRed = true := by
      rw [isRed_lowered, hp]
    cases s with
    | left => exact ⟨hsibling.join_red .left _ hlowered hblack hl h, h', hr⟩
    | right => exact ⟨hsibling.join_red .right _ hlowered hblack hr h', h, hl⟩

/-- **The fix-up** of a red focus within fitting frames gives a red-black tree. -/
theorem redBlack_fixTree {n : ℕ} (h : RedBlack u n) (hred : isRed u = true) (hctx : Fits n ctx) :
    ∃ m, RedBlack (paintRoot false (fixTree u ctx)) m := by
  induction u, ctx using fixTree.induct generalizing n with
  | case1 u =>
    simp only [fixTree]
    exact h.blacken
  | case2 u p =>
    simp only [fixTree, plug]
    have hpainted : paintRoot false (join p.side p.addr p.value u p.sibling) =
        join p.side p.addr (p.value.paint false) u p.sibling := by
      cases p.side <;> rfl
    rw [hpainted]
    exact ⟨_, h.join_black _ _ rfl hctx.1⟩
  | case3 u p g ctx hp huncle ih =>
    rw [Fits, if_pos hp] at hctx
    obtain ⟨hsibling, -, hhead, huncles, hrest⟩ := hctx
    rw [if_neg (by simp [hhead g rfl])] at hrest
    rw [fixTree, if_pos hp, if_pos huncle]
    refine ih (.join_red _ _ rfl ?_ (isRed_paintRoot _) (h.join_black _ _ rfl hsibling)
      (huncles.blacken_red huncle)) (isRed_join ..) hrest
    rw [isRed_join]
    rfl
  | case4 u p g ctx hp huncle q near hstraight =>
    rw [Fits, if_pos hp] at hctx
    obtain ⟨hsibling, hblack, hhead, huncles, hrest⟩ := hctx
    rw [if_neg (by simp [hhead g rfl])] at hrest
    obtain ⟨hnear, hq, hqblack⟩ := h.straightened hred g.side hp hsibling hblack
    rw [hstraight] at hnear hq hqblack
    rw [fixTree, if_pos hp, if_neg huncle, hstraight]
    -- the grandparent goes down red, below the black node that takes its place
    have hlow : RedBlack (join g.side.other g.addr (lowered g.side.other (g.value.paint true) g.sibling
        q.sibling) g.sibling q.sibling) n := by
      refine huncles.join_red _ _ ?_ (by simpa using huncle) hqblack hq
      rw [isRed_lowered]
      rfl
    obtain ⟨m, hm⟩ := (hlow.join_black g.side.other q.addr (v := lifted g.side.other
      (q.value.paint false) _ near) (isRed_lifted ..) hnear).plugged hrest fun _ _ _ => by
        rw [isRed_join, isRed_lifted]
        rfl
    exact hm.blacken
  | case5 u p g ctx hp =>
    rw [fixTree, if_neg hp]
    obtain ⟨m, hm⟩ := h.plugged hctx fun f hf hfred => by
      obtain rfl : p = f := Option.some.inj hf
      exact absurd hfred hp
    exact hm.blacken

/-- The frames of a descent take a leaf. -/
theorem RedBlack.fits_path {n : ℕ} (h : RedBlack u n) (interval : Interval T) (hctx : Fits n ctx)
    (hroot : ∀ f ∈ ctx.head?, f.value.isRed = true → isRed u = false) :
    Fits 0 (path interval u ctx) := by
  induction h generalizing ctx with
  | nil => exact hctx
  | @red a v l r n hv hl hr h h' ihl ihr =>
    have hhead : ∀ g ∈ ctx.head?, g.value.isRed = false := fun g hg =>
      Bool.eq_false_iff.mpr fun hgred => absurd (hroot g hg hgred) (by simp [isRed, hv])
    have hraised : (v.raise interval.stop).isRed = true := hv
    rw [path]
    split
    · refine ihl ⟨h', ?_⟩ fun _ _ _ => hl
      rw [if_pos hraised]
      exact ⟨hr, hhead, hctx⟩
    · refine ihr ⟨h, ?_⟩ fun _ _ _ => hr
      rw [if_pos hraised]
      exact ⟨hl, hhead, hctx⟩
  | @black a v l r n hv h h' ihl ihr =>
    have hraised : (v.raise interval.stop).isRed = false := hv
    have hblack : ∀ (f : Frame (NodeData T U)) (rest : Context T U),
        f.value.isRed = false → ∀ g ∈ (f :: rest).head?, g.value.isRed = true → isRed l = false ∧
          isRed r = false := by
      rintro f rest hf g ⟨⟩ hgred
      exact absurd hgred (by simp [hf])
    rw [path]
    split
    · exact ihl ⟨h', by simp [hraised, hctx]⟩ fun g hg hgred => (hblack _ _ hraised g hg hgred).1
    · exact ihr ⟨h, by simp [hraised, hctx]⟩ fun g hg hgred => (hblack _ _ hraised g hg hgred).2

/-! ### Insertions -/

/-- A red-black search tree. -/
structure SearchTree (u : Tree T U) : Prop where
  sorted : (sequence u).Pairwise fun e e' => e.1.start ≤ e'.1.start
  root_black : isRed u = false
  redBlack : ∃ n, RedBlack u n

theorem SearchTree.insertTree (h : SearchTree u) (interval : Interval T) (data : U) (a : ℕ) :
    SearchTree (insertTree interval data a u) ∧
      (sequence (insertTree interval data a u)).Perm ((interval, data) :: sequence u) := by
  obtain ⟨n, hn⟩ := h.redBlack
  obtain ⟨before, after, heq, hhang, hbefore, hafter⟩ :=
    sequence_hang interval (.node a ⟨interval, data, interval.stop, true⟩ .nil .nil) h.sorted
  have hseq : sequence (IntervalTree.insertTree interval data a u) =
      before ++ (interval, data) :: after := by
    rw [IntervalTree.insertTree, sequence_paintRoot, sequence_fixTree ⟨a, rfl⟩, plug_path]
    simpa [plug, sequence, NodeData.entry] using hhang
  have hsorted := heq ▸ h.sorted
  obtain ⟨hb, ha, hba⟩ := pairwise_append.mp hsorted
  refine ⟨⟨?_, isRed_paintRoot _, ?_⟩, ?_⟩
  · rw [hseq]
    refine pairwise_append.mpr ⟨hb, pairwise_cons.mpr ⟨hafter, ha⟩, fun e he e' he' => ?_⟩
    rcases mem_cons.mp he' with rfl | he'
    · exact hbefore e he
    · exact hba e he e' he'
  · exact redBlack_fixTree (.red rfl rfl rfl .nil .nil) rfl (hn.fits_path interval trivial (by simp))
  · rw [hseq, heq]
    exact perm_middle

/-- After a run of insertions the tree holds what was in it and what was inserted. -/
theorem insertAll_spec (fuel : ℕ) {t : IntervalTree T U} (h : Cursor t u []) (hu : SearchTree u)
    (items : List (Interval T × U)) (hfuel : u.addrs.length + items.length < fuel) :
    ∃ t' u', insertAll fuel t items = some t' ∧ Cursor t' u' [] ∧ SearchTree u' ∧
      t'.len = t.len + items.length ∧ (sequence u').Perm (items ++ sequence u) := by
  induction items generalizing t u with
  | nil => exact ⟨t, u, rfl, h, hu, rfl, .refl _⟩
  | cons item items ih =>
    obtain ⟨interval, data⟩ := item
    rw [length_cons] at hfuel
    obtain ⟨t₁, hinsert, hlen₁, hcursor₁⟩ := insert_spec fuel h hu.root_black (by omega) interval data
    obtain ⟨hu₁, hperm₁⟩ := hu.insertTree interval data t.heap.fresh
    have hsize : (insertTree interval data t.heap.fresh u).addrs.length = u.addrs.length + 1 := by
      rw [← length_sequence, ← length_sequence, hperm₁.length_eq, length_cons]
    obtain ⟨t', u', hrun, hcursor, hu', hlen, hperm⟩ := ih hcursor₁ hu₁ (by omega)
    refine ⟨t', u', ?_, hcursor, hu', ?_, ?_⟩
    · simp only [insertAll, hinsert, Option.bind_eq_bind, Option.bind_some, hrun]
    · rw [hlen, hlen₁, length_cons]
      omega
    · exact hperm.trans ((hperm₁.append_left _).trans perm_middle)

theorem searchTree_nil : SearchTree (.nil : Tree T U) :=
  ⟨.nil, rfl, 0, .nil⟩

/-- **Insertion keeps a red-black search tree.**  After any sequence of insertions the pointers lay
out a red-black tree with a black root, whose entries are in order the inserted ones sorted by
start; no insertion follows an absent pointer. -/
theorem insertAll_searchTree (items : List (Interval T × U)) (fuel : ℕ) (hfuel : items.length < fuel) :
    ∃ t u, insertAll fuel empty items = some t ∧ Cursor t u [] ∧ SearchTree u ∧
      (sequence u).Perm items ∧ t.len = u.addrs.length := by
  obtain ⟨t, u, hrun, hcursor, hu, hlen, hperm⟩ :=
    insertAll_spec fuel cursor_empty searchTree_nil items (by simpa [BinTree.addrs] using hfuel)
  have hperm : (sequence u).Perm items := by simpa [sequence] using hperm
  refine ⟨t, u, hrun, hcursor, hu, hperm, ?_⟩
  rw [hlen, ← length_sequence, hperm.length_eq]
  exact Nat.zero_add _

/-- Three insertions in rising order rotate the second to the root. -/
theorem insertAll_searchTree_three :
    (∃ t u, insertAll 4 empty [((⟨0, 4⟩ : Interval ℤ), 'a'), (⟨2, 6⟩, 'b'), (⟨5, 6⟩, 'c')] = some t ∧
      Cursor t u [] ∧ SearchTree u ∧
      (sequence u).Perm [((⟨0, 4⟩ : Interval ℤ), 'a'), (⟨2, 6⟩, 'b'), (⟨5, 6⟩, 'c')] ∧
      t.len = u.addrs.length) ∧
    (insertAll 4 empty [((⟨0, 4⟩ : Interval ℤ), 'a'), (⟨2, 6⟩, 'b'), (⟨5, 6⟩, 'c')]).map
      IntervalTree.root = some (some 1) :=
  ⟨insertAll_searchTree _ 4 (by decide), by decide +kernel⟩

end IntervalTree
