/-
Reusing blocks from the prefix caches.

* `gatherBlocks_spec`, `getFullBlocksFromDevicePrefixCache_spec` — blocks of the replica, and
  copies of blocks of other replicas;
* `getFullBlocksFromHostPrefixCache_spec` — blocks loaded by the connector;
* `Found` — what is known of the blocks found for the hashes of a request.
-/
import MojoMac.BlockOwnership

open Function StateSpec List

set_option linter.unusedSectionVars false

namespace PoolView

variable {H : Type} (v : PoolView H) (bs : List ℕ)

/-- What every step keeps. -/
theorem foldl_keeps {α : Type} (f : PoolView H → α) {g : PoolView H → ℕ → PoolView H}
    (hg : ∀ v b, f (g v b) = f v) : f (bs.foldl g v) = f v := by
  induction bs generalizing v with
  | nil => rfl
  | cons b bs ih => exact (ih (g v b)).trans (hg v b)

@[simp] theorem foldl_touch_hash : (bs.foldl touch v).hash = v.hash :=
  foldl_keeps v bs hash fun _ _ => rfl

@[simp] theorem foldl_drop_hash : (bs.foldl drop v).hash = v.hash :=
  foldl_keeps v bs hash fun _ _ => rfl

@[simp] theorem foldl_drop_numBlocks : (bs.foldl drop v).numBlocks = v.numBlocks :=
  foldl_keeps v bs numBlocks fun _ _ => rfl

@[simp] theorem foldl_alloc_numBlocks : (bs.foldl alloc v).numBlocks = v.numBlocks :=
  foldl_keeps v bs numBlocks fun _ _ => rfl

theorem foldl_alloc_hash (b : ℕ) :
    (bs.foldl alloc v).hash b = if b ∈ bs then none else v.hash b := by
  induction bs generalizing v with
  | nil => simp
  | cons b' bs ih =>
    rw [foldl_cons, ih]
    by_cases hb : b = b'
    · simp [alloc, hb]
    · simp [alloc, hb]

theorem alloc_hash_of_ne {v : PoolView H} {b b' : ℕ} (h : b' ≠ b) :
    (v.alloc b).hash b' = v.hash b' :=
  update_of_ne h ..

/-- Handing out a block only evicts. -/
theorem cached_of_alloc {v : PoolView H} {b : ℕ} {x : H} (h : (v.alloc b).Cached x) :
    v.Cached x := by
  obtain ⟨b', hb'⟩ := h
  by_cases hne : b' = b
  · simp [alloc, hne] at hb'
  · exact ⟨b', by rwa [alloc_hash_of_ne hne] at hb'⟩

end PoolView

namespace BlockManager

variable {H R P : Type} [DecidableEq H] [DecidableEq R] {m : BlockManager H R P} {i b : ℕ}
  {r : R} {v : PoolView H} {held : Multiset ℕ} {α : Type}

variable (m) (i)

@[simp] theorem setPool_self (p : BlockPool H) : (m.setPool i p).deviceBlockPools i = p :=
  update_self ..

@[simp] theorem setPool_setPool (p p' : BlockPool H) :
    (m.setPool i p).setPool i p' = m.setPool i p' := by
  rw [setPool, setPool, setPool, update_idem]

@[simp] theorem setPool_eq_self : m.setPool i (m.deviceBlockPools i) = m := by
  rw [setPool, update_eq_self]

@[simp] theorem owned_setPool (p : BlockPool H) : (m.setPool i p).owned i = m.owned i := rfl

@[simp] theorem pinned_setPool (p : BlockPool H) : (m.setPool i p).pinned i = m.pinned i := rfl

variable {m i} {E : PyError → BlockManager H R P → Prop}
  {op : PyM (BlockPool H) α} {Q : α → BlockManager H R P → Prop}

theorem spec_onPool (hi : i < m.numReplicas) :
    Spec (onPool i op) m Q E ↔ Spec op (m.deviceBlockPools i) (fun a p => Q a (m.setPool i p))
      fun e p => E e (m.setPool i p) := by
  rw [onPool]
  simp only [spec_bind, spec_get, if_neg (not_le.mpr hi), spec_focus]

theorem spec_getPool (hi : i < m.numReplicas) {Q : BlockPool H → BlockManager H R P → Prop} :
    Spec (getPool i) m Q E ↔ Q (m.deviceBlockPools i) m := by
  rw [getPool]
  simp only [spec_bind, spec_get, if_neg (not_le.mpr hi), spec_pure]

theorem spec_onPool_of_le (hi : m.numReplicas ≤ i) :
    Spec (onPool i op) m Q E ↔ E .indexError m := by
  rw [onPool]
  simp only [spec_bind, spec_get, if_pos hi, spec_throw]

theorem spec_getPool_of_le (hi : m.numReplicas ≤ i) {Q : BlockPool H → BlockManager H R P → Prop} :
    Spec (getPool i) m Q E ↔ E .indexError m := by
  rw [getPool]
  simp only [spec_bind, spec_get, if_pos hi, spec_throw]

variable {p : BlockPool H} {x : H} {bs : List ℕ}

namespace Owns

/-! ### The pool during a call -/

section Held

variable (h : (m.setPool i p).Owns i v held)
include h

theorem poolShows : p.Shows v := by
  have hshows := h.shows
  rwa [setPool_self] at hshows

theorem touch (hb : b < v.numBlocks) :
    Returns (BlockPool.touch b) p fun _ p' => (m.setPool i p').Owns i (v.touch b) (b ::ₘ held) := by
  refine (h.poolShows.touch hb).mono fun _ p' hp' => ?_
  have howns := h.setPool_touch hp'
  rwa [setPool_setPool] at howns

theorem commit (hb : b < v.numBlocks) (hnone : v.hash b = none) (hx : ¬ v.Cached x)
    (hexp : ∀ e, m.Expects i b e → e = some x) :
    Returns (BlockPool.commitIntoPrefixCache x b) p fun _ p' =>
      (m.setPool i p').Owns i (v.commit x b) held := by
  refine (h.poolShows.commitIntoPrefixCache hb hnone hx).mono fun _ p' hp' => ?_
  have howns := h.setPool_commit hexp hp'
  rwa [setPool_setPool] at howns

/-- Blocks held by the call are pinned once more. -/
theorem forM_touch (hbs : ∀ b ∈ bs, b < v.numBlocks) :
    Returns (bs.forM BlockPool.touch) p fun _ p' =>
      (m.setPool i p').Owns i (bs.foldl PoolView.touch v) (↑bs + held) := by
  induction bs generalizing p v held with
  | nil =>
    change (m.setPool i p).Owns i v (0 + held)
    rwa [zero_add]
  | cons b bs ih =>
    change Returns (BlockPool.touch b >>= fun _ => bs.forM BlockPool.touch) p _
    refine Returns.bind (h.touch (hbs b mem_cons_self)) fun _ p' hp' => ?_
    refine Returns.mono (ih hp' fun b' hb' => hbs b' (mem_cons_of_mem _ hb')) fun _ p'' hp'' => ?_
    rwa [← Multiset.cons_coe, Multiset.cons_add, ← Multiset.add_cons]

end Held

theorem free (h : (m.setPool i p).Owns i v (b ::ₘ held)) :
    Returns (BlockPool.freeBlock b) p fun _ p' => (m.setPool i p').Owns i (v.drop b) held := by
  have hmem : b ∈ v.refs := by
    rw [h.refs]
    simp
  refine (h.poolShows.freeBlock hmem).mono fun _ p' hp' => ?_
  have howns := h.setPool_drop hp'
  rwa [setPool_setPool] at howns

/-- Blocks held by the call are given back. -/
theorem forM_free (h : (m.setPool i p).Owns i v (↑bs + held)) :
    Returns (bs.forM BlockPool.freeBlock) p fun _ p' =>
      (m.setPool i p').Owns i (bs.foldl PoolView.drop v) held := by
  induction bs generalizing p v with
  | nil =>
    change (m.setPool i p).Owns i v held
    rwa [Multiset.coe_nil, zero_add] at h
  | cons b bs ih =>
    rw [← Multiset.cons_coe, Multiset.cons_add] at h
    change Returns (BlockPool.freeBlock b >>= fun _ => bs.forM BlockPool.freeBlock) p _
    exact Returns.bind h.free fun _ p' hp' => ih hp'

end Owns

/-- A free block is handed to the call. -/
theorem allocateDeviceBlock_spec (h : m.Owns i v held) (hi : i < m.numReplicas) {rest : List ℕ}
    (hfree : v.free = b :: rest) :
    Returns (allocateDeviceBlock i) m fun b' m' => b' = b ∧ ∃ p, m' = m.setPool i p ∧
      m'.Owns i (v.alloc b) (b ::ₘ held) := by
  rw [Returns, allocateDeviceBlock]
  simp only [spec_bind, spec_onPool hi]
  refine Spec.imp (h.shows.allocBlock hfree) ?_
  rintro _ p ⟨rfl, hp⟩
  exact ⟨rfl, p, rfl, h.setPool_alloc (hfree ▸ mem_cons_self) hp⟩

/-- Free blocks are handed to the call, in the order of the queue. -/
theorem mapM_allocateDeviceBlock (xs : List ℕ) (h : m.Owns i v held) (hi : i < m.numReplicas)
    (hxs : xs.length ≤ v.free.length) :
    Returns (xs.mapM fun _ => allocateDeviceBlock i) m fun bs m' => bs = v.free.take xs.length ∧
      ∃ p, m' = m.setPool i p ∧ m'.Owns i (bs.foldl PoolView.alloc v) (↑bs + held) := by
  induction xs generalizing m v held with
  | nil =>
    refine ⟨rfl, m.deviceBlockPools i, (setPool_eq_self m i).symm, ?_⟩
    change m.Owns i v (0 + held)
    rwa [zero_add]
  | cons x xs ih =>
    rw [mapM_cons]
    cases hfree : v.free with
    | nil =>
      rw [hfree] at hxs
      cases hxs
    | cons b rest =>
      have hrest : (v.alloc b).free = rest := by
        change v.free.erase b = rest
        rw [hfree, erase_cons_head]
      rw [hfree, length_cons, length_cons] at hxs
      refine Returns.bind (allocateDeviceBlock_spec h hi hfree) ?_
      rintro _ _ ⟨rfl, p, rfl, hp⟩
      refine Returns.bind (ih hp hi (by rw [hrest]; omega)) ?_
      rintro bs _ ⟨hbs, p', rfl, hp'⟩
      refine ⟨by rw [hbs, hrest]; rfl, p', setPool_setPool m i p p', ?_⟩
      rwa [← Multiset.cons_coe, foldl_cons, Multiset.cons_add, ← Multiset.add_cons]

/-! ### Blocks of the replica, and copies -/

/-- The copies, whatever their sources. -/
def allCopies (copies : List (ℕ × List (PageCopy H))) : List (PageCopy H) := copies.flatMap Prod.snd

theorem allCopies_addCopy (copies : List (ℕ × List (PageCopy H))) (src : ℕ) (c : PageCopy H) :
    (allCopies (addCopy copies src c)).Perm (c :: allCopies copies) := by
  induction copies with
  | nil => exact Perm.refl _
  | cons entry copies ih =>
    obtain ⟨replicaIdx, pending⟩ := entry
    rw [addCopy]
    split
    · change (pending ++ [c] ++ allCopies copies).Perm (c :: (pending ++ allCopies copies))
      rw [append_assoc]
      exact perm_middle
    · change (pending ++ allCopies (addCopy copies src c)).Perm (c :: (pending ++ allCopies copies))
      exact (ih.append_left pending).trans perm_middle

/-- What is known of the blocks gathered for the hashes `hs`: they have these hashes, or are the
destinations of copies that are not committed yet; nobody else uses those. -/
structure Gathered (used : Multiset ℕ) (v : PoolView H) (hs : List H) (blocks : List ℕ)
    (cs : List (PageCopy H)) : Prop where
  length : blocks.length = hs.length
  found : ∀ k b : ℕ, blocks[k]? = some b →
    v.hash b = hs[k]? ∨ ∃ c ∈ cs, c.dst = b ∧ hs[k]? = some c.hash
  mem : ∀ c ∈ cs, c.dst ∈ blocks ∧ c.hash ∈ hs
  uncommitted : ∀ c ∈ cs, v.hash c.dst = none ∧ ¬ v.Cached c.hash
  unused : ∀ c ∈ cs, c.dst ∉ used
  dsts : (cs.map (·.dst)).Nodup
  hashes : (cs.map (·.hash)).Nodup

variable {hs : List H} {blocks : List ℕ}

namespace Gathered

variable {used : Multiset ℕ} {cs cs' : List (PageCopy H)} (h : Gathered used v hs blocks cs)

include h

theorem perm (hcs : cs'.Perm cs) : Gathered used v hs blocks cs' where
  length := h.length
  found k b hb := (h.found k b hb).imp_right fun ⟨c, hc, hrest⟩ => ⟨c, hcs.mem_iff.mpr hc, hrest⟩
  mem c hc := h.mem c (hcs.mem_iff.mp hc)
  uncommitted c hc := h.uncommitted c (hcs.mem_iff.mp hc)
  unused c hc := h.unused c (hcs.mem_iff.mp hc)
  dsts := (hcs.map _).nodup_iff.mpr h.dsts
  hashes := (hcs.map _).nodup_iff.mpr h.hashes

/-- The places after one more block was gathered, with their hashes. -/
theorem place (x : H) {k b' : ℕ} (hk : (blocks ++ [b])[k]? = some b') :
    blocks[k]? = some b' ∧ (hs ++ [x])[k]? = hs[k]? ∨ b' = b ∧ (hs ++ [x])[k]? = some x := by
  rcases getElem?_append_eq_some.mp hk with hk | ⟨j, rfl, hj⟩
  · have hlt := (List.getElem_of_getElem? hk).1
    exact .inl ⟨hk, getElem?_append_left (h.length ▸ hlt)⟩
  rw [getElem?_singleton] at hj
  split at hj
  · rename_i hzero
    refine .inr ⟨(Option.some.inj hj).symm, ?_⟩
    rw [hzero, h.length, Nat.add_zero, getElem?_concat_length]
  · cases hj

/-- A block of the replica that has the next hash. -/
theorem hit (hb : v.hash b = some x) :
    Gathered used (v.touch b) (hs ++ [x]) (blocks ++ [b]) cs := by
  refine { h with
    length := by simp [h.length]
    found := fun k b' hk => ?_
    mem := fun c hc => ⟨mem_append_left _ (h.mem c hc).1, mem_append_left _ (h.mem c hc).2⟩ }
  rcases h.place x hk with ⟨hk, hx⟩ | ⟨rfl, hx⟩
  · rw [hx]
    exact h.found k b' hk
  · rw [hx]
    exact .inl hb

/-- A free block for a copy of a block of another replica. -/
theorem copy (hv : v.WF) (hrefs : v.refs = used + (↑blocks + held)) (hfree : b ∈ v.free)
    (hx : ¬ v.Cached x) (hnew : x ∉ hs) (src : ℕ) :
    Gathered used (v.alloc b) (hs ++ [x]) (blocks ++ [b]) (⟨x, b, src⟩ :: cs) := by
  have hnot : b ∉ v.refs := ((hv.mem_free b).mp hfree).2
  -- the blocks gathered so far are in use, so none of them is handed out
  have hblocks : b ∉ blocks := by
    intro hmem
    refine hnot ?_
    rw [hrefs]
    simp [hmem]
  constructor
  case length => simp [h.length]
  case found =>
    intro k b' hk
    rcases h.place x hk with ⟨hk, hx⟩ | ⟨rfl, hx⟩
    · have hne : b' ≠ b := fun heq => hblocks (heq ▸ mem_of_getElem? hk)
      rw [PoolView.alloc_hash_of_ne hne, hx]
      exact (h.found k b' hk).imp_right fun ⟨c, hc, hrest⟩ => ⟨c, mem_cons_of_mem _ hc, hrest⟩
    · exact .inr ⟨⟨x, b', src⟩, mem_cons_self, rfl, hx⟩
  case mem =>
    intro c hc
    rcases mem_cons.mp hc with rfl | hc
    · simp
    · exact ⟨mem_append_left _ (h.mem c hc).1, mem_append_left _ (h.mem c hc).2⟩
  case uncommitted =>
    intro c hc
    rcases mem_cons.mp hc with rfl | hc
    · exact ⟨by simp [PoolView.alloc], fun hy => hx (PoolView.cached_of_alloc hy)⟩
    · have hne : c.dst ≠ b := fun heq => hblocks (heq ▸ (h.mem c hc).1)
      rw [PoolView.alloc_hash_of_ne hne]
      exact ⟨(h.uncommitted c hc).1, fun hy => (h.uncommitted c hc).2 (PoolView.cached_of_alloc hy)⟩
  case unused =>
    intro c hc
    rcases mem_cons.mp hc with rfl | hc
    · intro hmem
      refine hnot ?_
      rw [hrefs]
      exact Multiset.mem_add.mpr (.inl hmem)
    · exact h.unused c hc
  case dsts =>
    rw [map_cons, nodup_cons]
    refine ⟨fun hmem => ?_, h.dsts⟩
    obtain ⟨c, hc, heq⟩ := mem_map.mp hmem
    have hdst : c.dst = b := heq
    exact hblocks (hdst ▸ (h.mem c hc).1)
  case hashes =>
    rw [map_cons, nodup_cons]
    refine ⟨fun hmem => ?_, h.hashes⟩
    obtain ⟨c, hc, heq⟩ := mem_map.mp hmem
    have hhash : c.hash = x := heq
    exact hnew (hhash ▸ (h.mem c hc).2)

end Gathered

/-- What the loop over the hashes `todo` has come to: it has served a first part of them; where it
has stopped, or before, there was a hash that no block of the replica had. -/
def Gathers (m : BlockManager H R P) (i : ℕ) (v : PoolView H) (held : Multiset ℕ) (done todo : List H)
    (res : List ℕ × List (ℕ × List (PageCopy H))) (m' : BlockManager H R P) : Prop :=
  ∃ n p v', n ≤ todo.length ∧ m' = m.setPool i p ∧ m'.Owns i v' (↑res.1 + held) ∧
    Gathered (m.owned i + m.pinned i) v' (done ++ todo.take n) res.1 (allCopies res.2) ∧
    (∀ x, v'.Cached x → v.Cached x) ∧
    (n < todo.length → ∃ f x, f ≤ n ∧ todo[f]? = some x ∧ ¬ v.Cached x)

theorem gatherBlocks_spec (hi : i < m.numReplicas) {done todo : List H}
    {copies : List (ℕ × List (PageCopy H))} (howns : m.Owns i v (↑blocks + held))
    (hg : Gathered (m.owned i + m.pinned i) v done blocks (allCopies copies))
    (hnodup : (done ++ todo).Nodup) :
    Returns (gatherBlocks i blocks copies todo) m (Gathers m i v held done todo) := by
  induction todo generalizing m v done blocks copies with
  | nil =>
    refine ⟨0, m.deviceBlockPools i, v, le_rfl, (setPool_eq_self m i).symm, howns, ?_,
      fun _ hx => hx, fun hlt => absurd hlt (lt_irrefl 0)⟩
    simpa using hg
  | cons x todo ih =>
    have hnodup' : (done ++ [x] ++ todo).Nodup := by simpa using hnodup
    have hnew : x ∉ done := not_mem_done hnodup rfl
    have hblocks : ∀ b, (b ::ₘ (↑blocks + held) : Multiset ℕ) = ↑(blocks ++ [b]) + held := by
      intro b
      rw [← Multiset.coe_add, Multiset.coe_singleton, ← Multiset.singleton_add]
      abel
    -- the loop stops here
    have hstop : ¬ v.Cached x → Gathers m i v held done (x :: todo) (blocks, copies) m := by
      intro hx
      refine ⟨0, m.deviceBlockPools i, v, Nat.zero_le _, (setPool_eq_self m i).symm, howns, ?_,
        fun _ hy => hy, fun _ => ⟨0, x, le_rfl, rfl, hx⟩⟩
      simpa using hg
    rw [Returns, gatherBlocks, spec_get_bind]
    by_cases hcached : v.Cached x
    · obtain ⟨b, hb⟩ := hcached
      simp only [(howns.shows.lookup x b).mpr hb, spec_bind, spec_onPool hi]
      refine Spec.imp (howns.shows.touch (howns.shows.wf.lt_of_hash b x hb)) (fun _ p hp => ?_)
      have howns' := howns.setPool_touch hp
      rw [hblocks b] at howns'
      refine Spec.imp (ih (m := m.setPool i p) hi howns' (hg.hit hb) hnodup') ?_
      rintro res _ ⟨n, p', v', hn, rfl, hres, hgres, hmono, hmiss⟩
      refine ⟨n + 1, p', v', by simpa using hn, setPool_setPool .., hres, ?_, hmono, fun hlt => ?_⟩
      · simpa using hgres
      obtain ⟨f, y, hf, hy, hnot⟩ := hmiss (by simpa using hlt)
      exact ⟨f + 1, y, by omega, hy, hnot⟩
    simp only [howns.shows.lookup_eq_none hcached, spec_bind, spec_get]
    by_cases hcross : m.crossReplicaCopyEnabled = true
    · simp only [hcross, Bool.not_true, Bool.false_eq_true, if_false, spec_bind, spec_get]
      cases hfind : m.findBlockInAnyReplica x i with
      | none =>
        rw [spec_pure]
        exact hstop hcached
      | some found =>
        simp only [spec_bind, spec_get, howns.shows.numFreeBlocks]
        cases hfree : v.free with
        | nil =>
          simp only [length_nil, Nat.cast_zero, if_true, spec_pure]
          exact hstop hcached
        | cons b rest =>
          rw [if_neg (by simp only [length_cons]; omega), spec_bind]
          refine Spec.imp (allocateDeviceBlock_spec howns hi hfree) ?_
          rintro dst _ ⟨rfl, p, rfl, howns'⟩
          have hg' := (hg.copy howns.shows.wf howns.refs
            (hfree ▸ mem_cons_self) hcached hnew found.2).perm
            (allCopies_addCopy copies found.1 ⟨x, dst, found.2⟩)
          rw [hblocks dst] at howns'
          refine Spec.imp (ih (m := m.setPool i p) hi howns' hg' hnodup') ?_
          rintro res _ ⟨n, p', v', hn, rfl, hres, hgres, hmono, -⟩
          refine ⟨n + 1, p', v', by simpa using hn, setPool_setPool .., hres, ?_,
            fun y hy => PoolView.cached_of_alloc (hmono y hy),
            fun _ => ⟨0, x, Nat.zero_le _, rfl, hcached⟩⟩
          simpa using hgres
    · simp only [hcross, Bool.not_false, if_true, spec_pure]
      exact hstop hcached

/-! ### Committing the copies -/

theorem commit_hash_of_ne {b' : ℕ} (h : b' ≠ b) : (v.commit x b).hash b' = v.hash b' :=
  update_of_ne h ..

theorem cached_commit {y : H} (h : (v.commit x b).Cached y) : y = x ∨ v.Cached y := by
  obtain ⟨b', hb'⟩ := h
  by_cases hne : b' = b
  · exact .inl (by simpa [PoolView.commit, hne, eq_comm] using hb')
  · exact .inr ⟨b', by rwa [commit_hash_of_ne hne] at hb'⟩

/-- Blocks that only the call knows of, without hashes, and different hashes for them. -/
structure Fresh (m : BlockManager H R P) (i : ℕ) (v : PoolView H) (l : List (ℕ × H)) : Prop where
  lt : ∀ q ∈ l, q.1 < v.numBlocks
  hash : ∀ q ∈ l, v.hash q.1 = none
  unused : ∀ q ∈ l, q.1 ∉ m.owned i + m.pinned i
  blocks : (l.map Prod.fst).Nodup
  hashes : (l.map Prod.snd).Nodup

/-- The state after the blocks in `done` got their hashes, except under hashes that were taken. -/
structure Committed (m : BlockManager H R P) (i : ℕ) (held : Multiset ℕ) (v : PoolView H)
    (done : List (ℕ × H)) (p : BlockPool H) (v' : PoolView H) : Prop where
  owns : (m.setPool i p).Owns i v' held
  num : v'.numBlocks = v.numBlocks
  hash : ∀ q ∈ done, v'.hash q.1 = some q.2 ∨ v'.hash q.1 = none ∧ v.Cached q.2
  rest : ∀ b ∉ done.map Prod.fst, v'.hash b = v.hash b
  cached : ∀ y, v'.Cached y → y ∈ done.map Prod.snd ∨ v.Cached y

namespace Committed

theorem nil (h : (m.setPool i p).Owns i v held) : Committed m i held v [] p v :=
  ⟨h, rfl, by simp, fun _ _ => rfl, fun _ hy => .inr hy⟩

variable {l done todo : List (ℕ × H)} {q : ℕ × H} {v₁ : PoolView H} (h : Committed m i held v done p v₁)
  (hl : Fresh m i v l) (hsplit : l = done ++ q :: todo)

include h hl hsplit

theorem hash_eq_none : v₁.hash q.1 = none := by
  rw [h.rest _ (not_mem_map_done hl.blocks hsplit)]
  exact hl.hash q (by simp [hsplit])

theorem cached_iff : v₁.Cached q.2 ↔ v.Cached q.2 := by
  refine ⟨fun hx => (h.cached _ hx).resolve_left (not_mem_map_done hl.hashes hsplit),
    fun ⟨b, hb⟩ => ⟨b, ?_⟩⟩
  -- a block with a hash is none of the new ones
  rw [h.rest, hb]
  intro hmem
  obtain ⟨q', hq', rfl⟩ := mem_map.mp hmem
  rw [hl.hash q' (by simp [hsplit, hq'])] at hb
  cases hb

theorem skip (hx : v.Cached q.2) : Committed m i held v (done ++ [q]) p v₁ where
  owns := h.owns
  num := h.num
  hash := by
    rw [forall_mem_append, forall_mem_singleton]
    exact ⟨h.hash, .inr ⟨h.hash_eq_none hl hsplit, hx⟩⟩
  rest b hb := h.rest b fun hmem => hb (by simp [hmem])
  cached y hy := (h.cached y hy).imp_left fun hmem => by simp [hmem]

theorem commit (hx : ¬ v.Cached q.2) :
    Returns (BlockPool.commitIntoPrefixCache q.2 q.1) p fun _ p' =>
      Committed m i held v (done ++ [q]) p' (v₁.commit q.2 q.1) := by
  have hq : q ∈ l := by simp [hsplit]
  have hnew := not_mem_map_done hl.blocks hsplit
  refine (h.owns.commit (h.num ▸ hl.lt q hq) (h.hash_eq_none hl hsplit)
    ((h.cached_iff hl hsplit).not.mpr hx) fun e he => absurd he.mem (hl.unused q hq)).mono
    fun _ p' hp' => ⟨hp', h.num, ?_, fun b hb => ?_, fun y hy => ?_⟩
  · rw [forall_mem_append, forall_mem_singleton]
    refine ⟨fun q' hq' => ?_, .inl (by simp [PoolView.commit])⟩
    have hne : q'.1 ≠ q.1 := fun heq => hnew (heq ▸ mem_map_of_mem hq')
    rw [commit_hash_of_ne hne]
    exact h.hash q' hq'
  · rw [map_append, mem_append, not_or] at hb
    rw [commit_hash_of_ne (by simpa using hb.2), h.rest b hb.1]
  · rcases cached_commit hy with rfl | hy
    · simp
    · exact (h.cached y hy).imp_left fun hmem => by simp [hmem]

end Committed

/-- The copies are committed, one after the other. -/
theorem forM_commitCopy {cs : List (PageCopy H)} (h : (m.setPool i p).Owns i v held)
    (hl : Fresh m i v (cs.map fun c => (c.dst, c.hash))) (hcs : ∀ c ∈ cs, ¬ v.Cached c.hash) :
    Returns (cs.forM commitCopy) p fun _ p' => ∃ v',
      Committed m i held v (cs.map fun c => (c.dst, c.hash)) p' v' := by
  refine Spec.forM (I := fun done p' => ∃ v',
    Committed m i held v (done.map fun c => (c.dst, c.hash)) p' v') cs ?_ ⟨v, .nil h⟩
  rintro done c todo rfl p₁ ⟨v₁, h₁⟩
  rw [map_append]
  have hstep := h₁.commit (q := (c.dst, c.hash)) hl map_append (hcs c (by simp))
  exact hstep.mono fun _ p' hp' => ⟨_, hp'⟩

/-- Only pages of device memory changed. -/
def setMemory (m : BlockManager H R P) (mem : ℕ → ℕ → P) : BlockManager H R P :=
  { m with kvMemory := mem }

theorem Owns.setMemory (h : m.Owns i v held) (mem : ℕ → ℕ → P) : (m.setMemory mem).Owns i v held :=
  { h with }

theorem writePages_eq (m : BlockManager H R P) (i : ℕ) (blocks : List ℕ) (pages : List P) :
    ∃ mem, writePages i blocks pages m = m.setMemory mem := by
  rw [writePages]
  generalize blocks.zip pages = writes
  induction writes generalizing m with
  | nil => exact ⟨m.kvMemory, rfl⟩
  | cons w writes ih =>
    obtain ⟨mem, hmem⟩ := ih (m.setPage i w.1 w.2)
    exact ⟨mem, hmem⟩

theorem copyAll_eq (m : BlockManager H R P) (i : ℕ) (copies : List (ℕ × List (PageCopy H))) :
    ∃ mem, copies.foldl (fun m (srcReplica, pending) =>
      m.copyBlocksAcrossReplicas i srcReplica pending) m = m.setMemory mem := by
  induction copies generalizing m with
  | nil => exact ⟨m.kvMemory, rfl⟩
  | cons entry copies ih =>
    obtain ⟨mem, hmem⟩ := writePages_eq m i (entry.2.map (·.dst))
      (entry.2.map fun c => m.kvMemory entry.1 c.src)
    obtain ⟨mem', hmem'⟩ := ih (m.setMemory mem)
    refine ⟨mem', ?_⟩
    rw [foldl_cons]
    change copies.foldl _ (writePages i _ _ m) = _
    rw [hmem, hmem']
    rfl

/-- The blocks of a replica that have hashes are a first part of those asked for. -/
def Closed (v : PoolView H) (hs : List H) : Prop :=
  ∀ (j k : ℕ) (x y : H), k ≤ j → hs[j]? = some x → hs[k]? = some y → v.Cached x → v.Cached y

/-- **Blocks found on devices** for a first part of the hashes. -/
theorem getFullBlocksFromDevicePrefixCache_spec (hi : i < m.numReplicas) (howns : m.Owns i v held)
    (hnodup : hs.Nodup) :
    Returns (getFullBlocksFromDevicePrefixCache hs i) m fun bs m' => ∃ mem p v',
      m' = (m.setMemory mem).setPool i p ∧ m'.Owns i v' (↑bs + held) ∧ bs.length ≤ hs.length ∧
      (∀ k b : ℕ, bs[k]? = some b → v'.hash b = hs[k]?) ∧
      (m.onlyUseKvConnectorLastLevelCache = false → Closed v hs →
        ∀ (k : ℕ) (x : H), bs.length ≤ k → hs[k]? = some x → ¬ v'.Cached x) := by
  rw [Returns, getFullBlocksFromDevicePrefixCache, spec_get_bind]
  split_ifs with honly
  · refine ⟨m.kvMemory, m.deviceBlockPools i, v, ?_, ?_, Nat.zero_le _, by simp, fun h => ?_⟩
    · exact (setPool_eq_self m i).symm
    · simpa using howns
    · rw [h] at honly
      cases honly
  simp only [spec_bind, spec_getPool hi, spec_modify]
  have hstart : Gathered (m.owned i + m.pinned i) v [] [] (allCopies []) := by
    constructor <;> simp [allCopies]
  have howns' : m.Owns i v (↑([] : List ℕ) + held) := by simpa using howns
  refine Spec.imp (gatherBlocks_spec hi howns' hstart (by simpa using hnodup)) ?_
  rintro res _ ⟨n, p, v', hn, rfl, hres, hg, hmono, hmiss⟩
  rw [nil_append] at hg
  have hlen : res.1.length = n := by rw [hg.length, length_take, min_eq_left hn]
  obtain ⟨mem, hmem⟩ := copyAll_eq (m.setPool i p) i res.2
  rw [hmem, spec_onPool (show i < ((m.setPool i p).setMemory mem).numReplicas from hi)]
  have hnew : Fresh (m.setMemory mem) i v' ((allCopies res.2).map fun c => (c.dst, c.hash)) := by
    constructor
    · refine forall_mem_map.mpr fun c hc => hres.shows.wf.lt_of_refs _ ?_
      rw [hres.refs]
      simp [(hg.mem c hc).1]
    · exact forall_mem_map.mpr fun c hc => (hg.uncommitted c hc).1
    · exact forall_mem_map.mpr hg.unused
    · rw [map_map]
      exact hg.dsts
    · rw [map_map]
      exact hg.hashes
  have hcommit := forM_commitCopy (m := m.setMemory mem) (hres.setMemory mem) hnew
    fun c hc => (hg.uncommitted c hc).2
  have hpool : ((m.setPool i p).setMemory mem).deviceBlockPools i = p := setPool_self m i p
  rw [hpool]
  refine Spec.imp hcommit ?_
  rintro _ p' ⟨v'', hv''⟩
  refine ⟨mem, p', v'', setPool_setPool (m.setMemory mem) i p p', ?_, hlen ▸ hn, ?_, ?_⟩
  · exact (setPool_setPool (m.setMemory mem) i p p').symm ▸ hv''.owns
  · intro k b hk
    have hkn : k < n := by
      obtain ⟨hlt, -⟩ := List.getElem_of_getElem? hk
      omega
    rcases hg.found k b hk with hb | ⟨c, hc, rfl, hx⟩
    · rw [getElem?_take_of_lt hkn] at hb
      rw [hv''.rest, hb]
      -- a destination had no hash yet
      intro hdst
      rw [map_map] at hdst
      obtain ⟨c, hc, rfl⟩ := mem_map.mp hdst
      rw [Function.comp_apply, (hg.uncommitted c hc).1, eq_comm, List.getElem?_eq_none_iff] at hb
      omega
    · rw [getElem?_take_of_lt hkn] at hx
      rw [hx]
      exact (hv''.hash _ (mem_map_of_mem hc)).resolve_right fun hn =>
        (hg.uncommitted c hc).2 hn.2
  · intro _ hclosed k x hk hx hy
    have hkn : n ≤ k := hlen ▸ hk
    obtain ⟨hklt, hkx⟩ := List.getElem_of_getElem? hx
    rcases hv''.cached x hy with hy | hy
    · rw [map_map] at hy
      obtain ⟨c, hc, rfl⟩ := mem_map.mp hy
      have hsplit : (hs.take n ++ hs.drop n).Nodup := by rwa [take_append_drop]
      refine (nodup_append'.mp hsplit).2.2 (hg.mem c hc).2 (mem_iff_getElem?.mpr ?_)
      rw [Function.comp_apply] at hx
      exact ⟨k - n, by rw [getElem?_drop, Nat.add_sub_cancel' hkn, hx]⟩
    · obtain ⟨f, y, hf, hfy, hnot⟩ := hmiss (by omega)
      exact hnot (hclosed k f x y (by omega) hx hfy (hmono x hy))

/-! ### Blocks loaded by the connector -/

/-- What is known of the blocks that were found for the hashes `hs`. -/
structure Found (m : BlockManager H R P) (i : ℕ) (v : PoolView H) (hs : List H) (bs : List ℕ) :
    Prop where
  length : bs.length ≤ hs.length
  fits : ∀ k b : ℕ, bs[k]? = some b → Fits m i v hs[k]? bs k b

namespace Found

variable {bs' : List ℕ} {n : ℕ}

theorem getElem?_take (h : Found m i v (hs.take n) bs) {k : ℕ} (hk : bs[k]? = some b) :
    (hs.take n)[k]? = hs[k]? := by
  obtain ⟨hlt, -⟩ := List.getElem_of_getElem? hk
  have hlen := h.length
  rw [length_take] at hlen
  exact getElem?_take_of_lt (by omega)

theorem of_take (h : Found m i v (hs.take n) bs) : Found m i v hs bs where
  length := h.length.trans (by simp)
  fits k b hk := h.getElem?_take hk ▸ h.fits k b hk

/-- Blocks that have their hashes, and others behind them. -/
theorem append (howns : m.Owns i v held) (hlen : bs.length ≤ hs.length)
    (hbs : ∀ k b : ℕ, bs[k]? = some b → v.hash b = hs[k]?)
    (h : Found m i v (hs.drop bs.length) bs') : Found m i v hs (bs ++ bs') := by
  have hsome : ∀ k b : ℕ, bs[k]? = some b → ∃ x, hs[k]? = some x ∧ v.hash b = some x := by
    intro k b hk
    obtain ⟨hlt, -⟩ := List.getElem_of_getElem? hk
    have hget := getElem?_eq_getElem (show k < hs.length by omega)
    exact ⟨_, hget, (hbs k b hk).trans hget⟩
  refine ⟨?_, fun k b hk => ?_⟩
  · have hlen' := h.length
    rw [length_drop] at hlen'
    rw [length_append]
    omega
  rcases getElem?_append_eq_some.mp hk with hk | ⟨j, rfl, hj⟩
  · obtain ⟨x, hx, hb⟩ := hsome k b hk
    refine ⟨fun e he => by rw [howns.named b x e hb he, hx], .inr (hbs k b hk), fun hnone => ?_⟩
    rw [hnone] at hb
    cases hb
  have hfits := h.fits j b hj
  rw [getElem?_drop] at hfits
  refine ⟨hfits.expected, hfits.hash, fun hnone => ⟨(hfits.fresh hnone).1, fun k' hk' => ?_⟩⟩
  rcases getElem?_append_eq_some.mp hk' with hk' | ⟨j', rfl, hj'⟩
  · obtain ⟨x, -, hb⟩ := hsome k' b hk'
    rw [hnone] at hb
    cases hb
  · rw [(hfits.fresh hnone).2 j' hj']

end Found

/-- The loaded blocks are committed, except under hashes that a block of the replica has. -/
theorem forM_commitLoaded (only : Bool) {loaded : List (ℕ × H)} (h : (m.setPool i p).Owns i v held)
    (hl : Fresh m i v loaded) :
    Spec (loaded.forM (commitLoaded only)) p (fun _ p' => ∃ v', Committed m i held v loaded p' v')
      fun _ p' => ∃ v', (m.setPool i p').Owns i v' held ∧ only = false ∧
        ∃ q ∈ loaded, v.Cached q.2 := by
  refine Spec.forM (I := fun done p' => ∃ v', Committed m i held v done p' v') loaded ?_ ⟨v, .nil h⟩
  rintro done q todo hsplit p₁ ⟨v₁, h₁⟩
  rw [commitLoaded, spec_get_bind]
  have hmem : q.2 ∈ p₁.prefixCache ↔ v.Cached q.2 :=
    (h₁.owns.poolShows.cached_iff q.2).trans (h₁.cached_iff hl hsplit)
  by_cases hcached : v.Cached q.2
  · rw [if_pos (hmem.mpr hcached)]
    cases only with
    | false => exact ⟨v₁, h₁.owns, rfl, q, by simp [hsplit], hcached⟩
    | true => exact ⟨v₁, h₁.skip hl hsplit hcached⟩
  · rw [if_neg (hmem.not.mpr hcached)]
    exact Returns.mono (h₁.commit hl hsplit hcached) fun _ p' hp' => ⟨_, hp'⟩

/-- A transfer pins blocks that are in use. -/
theorem trackTransfer_spec (hi : i < m.numReplicas) (howns : m.Owns i v held)
    {t : PendingTransfer H P} (hlt : ∀ b ∈ t.blocks, b < v.numBlocks) (hnodup : t.blocks.Nodup)
    (hlen : ∀ hs, t.commitHashes = some hs → hs.length = t.blocks.length)
    (hexpected : ∀ (hs : List H) (k b : ℕ), t.commitHashes = some hs → t.blocks[k]? = some b →
      (∀ e, m.Expects i b e → e = hs[k]?) ∧ (v.hash b = none ∨ v.hash b = hs[k]?)) :
    Returns (trackTransfer i t) m fun _ m' => Inside i m m' ∧ ∃ v', m'.Owns i v' held ∧
      v'.hash = v.hash ∧ (t.blocks ≠ [] → m'.pendingTransfers i = m.pendingTransfers i ++ [t]) := by
  rw [Returns, trackTransfer]
  by_cases hnil : t.blocks = []
  · rw [if_pos hnil, spec_pure]
    exact ⟨Frame.refl i m, v, howns, rfl, fun h => absurd hnil h⟩
  simp only [if_neg hnil, spec_bind, spec_onPool hi, spec_modify]
  have howns' : (m.setPool i (m.deviceBlockPools i)).Owns i v held := by simpa using howns
  refine Spec.imp (howns'.forM_touch hlt) (fun _ p hp => ?_)
  refine ⟨(Frame.setPool i m p).trans (.setTransfers i _ _), _, hp.track hnodup hlen ?_,
    PoolView.foldl_touch_hash .., fun _ => Owns.setTransfers_self ..⟩
  rw [PoolView.foldl_touch_hash]
  exact hexpected

/-- The blocks that a call got from the free queue. -/
theorem Owns.fresh_of_take {n : ℕ} (h : m.Owns i v held) (hb : b ∈ v.free.take n) :
    b < v.numBlocks ∧ b ∉ v.refs ∧ b ∉ m.owned i + m.pinned i := by
  obtain ⟨hlt, hnot⟩ := (h.shows.wf.mem_free b).mp (mem_of_mem_take hb)
  refine ⟨hlt, hnot, fun hmem => hnot ?_⟩
  rw [h.refs]
  exact Multiset.mem_add.mpr (.inl hmem)

/-- Blocks that the call got for a load and nobody else knows of. -/
structure Loaded (m : BlockManager H R P) (i : ℕ) (v : PoolView H) (hs : List H) (bs : List ℕ) :
    Prop where
  length : bs.length = hs.length
  nodup : bs.Nodup
  hashes : hs.Nodup
  lt : ∀ b ∈ bs, b < v.numBlocks
  hash : ∀ b ∈ bs, v.hash b = none
  unused : ∀ b ∈ bs, b ∉ m.owned i + m.pinned i

/-- Loaded blocks get their hashes, now or later. -/
theorem commitOrTrack_spec (hi : i < m.numReplicas) (howns : m.Owns i v held)
    (hl : Loaded m i v hs bs) (reply : LoadReply P) : Spec (commitOrTrack i reply bs hs) m
      (fun _ m' => Inside i m m' ∧ ∃ v', m'.Owns i v' held ∧ Found m' i v' hs bs ∧
        ∀ b ∉ bs, v'.hash b = v.hash b) fun _ m' => Inside i m m' ∧ ∃ v', m'.Owns i v' held ∧
        m.onlyUseKvConnectorLastLevelCache = false ∧ reply.isComplete = true ∧
        ∃ x ∈ hs, v.Cached x := by
  have hunique : ∀ {k k' b : ℕ}, bs[k]? = some b → bs[k']? = some b → k' = k := by
    intro k k' b hk hk'
    obtain ⟨hlt, hget⟩ := List.getElem_of_getElem? hk
    obtain ⟨hlt', hget'⟩ := List.getElem_of_getElem? hk'
    exact hl.nodup.getElem_inj_iff.mp (hget'.trans hget.symm)
  have howned : ∀ {b}, b ∈ bs → b ∉ m.owned i := fun hb hmem =>
    hl.unused _ hb (Multiset.mem_add.mpr (.inl hmem))
  rw [commitOrTrack]
  by_cases hcomplete : reply.isComplete = true
  · rw [if_pos hcomplete]
    obtain ⟨mem, hmem⟩ := writePages_eq m i bs reply.pages
    simp only [spec_bind, spec_modify, spec_get, hmem]
    rw [spec_onPool (show i < (m.setMemory mem).numReplicas from hi)]
    have hfst : (bs.zip hs).map Prod.fst = bs := map_fst_zip hl.length.le
    have hsnd : (bs.zip hs).map Prod.snd = hs := map_snd_zip hl.length.ge
    have hmem : ∀ q ∈ bs.zip hs, q.1 ∈ bs := fun q hq => hfst ▸ mem_map_of_mem hq
    have hnew : Fresh (m.setMemory mem) i v (bs.zip hs) :=
      ⟨fun q hq => hl.lt _ (hmem q hq), fun q hq => hl.hash _ (hmem q hq),
        fun q hq => hl.unused _ (hmem q hq), hfst.symm ▸ hl.nodup, hsnd.symm ▸ hl.hashes⟩
    have howns' : ((m.setMemory mem).setPool i ((m.setMemory mem).deviceBlockPools i)).Owns i v
        held := by
      rw [setPool_eq_self]
      exact howns.setMemory mem
    have hinside : ∀ p, Inside i m ((m.setMemory mem).setPool i p) := fun p =>
      { Frame.setPool i (m.setMemory mem) p with }
    refine Spec.mono (forM_commitLoaded m.onlyUseKvConnectorLastLevelCache howns' hnew) ?_ ?_
    · rintro _ p ⟨v', hv'⟩
      refine ⟨hinside p, v', hv'.owns, ⟨hl.length.le, fun k b hk => ?_⟩, fun b hb => ?_⟩
      · have hb := mem_of_getElem? hk
        refine ⟨fun e he => absurd he.mem (hl.unused b hb), ?_,
          fun _ => ⟨howned hb, fun k' hk' => hunique hk hk'⟩⟩
        obtain ⟨hlt, hget⟩ := List.getElem_of_getElem? hk
        have hlt' : k < hs.length := hl.length ▸ hlt
        have hmem : (b, hs[k]) ∈ bs.zip hs := by
          rw [mem_iff_getElem?]
          exact ⟨k, by simp [getElem?_zip_eq_some, hk, hlt']⟩
        rw [getElem?_eq_getElem hlt']
        rcases hv'.hash _ hmem with hb | ⟨hb, -⟩
        · exact .inr hb
        · exact .inl hb
      · exact hv'.rest b (by rwa [hfst])
    · rintro _ p ⟨v', hv', honly, q, hq, hcached⟩
      exact ⟨hinside p, v', hv', honly, hcomplete, q.2, hsnd ▸ mem_map_of_mem hq, hcached⟩
  · rw [if_neg hcomplete]
    refine Returns.mono (trackTransfer_spec hi howns hl.lt hl.nodup ?_ ?_) ?_
    · intro hs' hhs'
      rw [← Option.some_inj.mp hhs', hl.length]
    · intro hs' k b hhs' hk
      have hb := mem_of_getElem? hk
      exact ⟨fun e he => absurd he.mem (hl.unused b hb), .inl (hl.hash b hb)⟩
    rintro _ m' ⟨hinside, v', hv', hhash, htransfers⟩
    refine ⟨hinside, v', hv', ⟨hl.length.le, fun k b hk => ?_⟩, fun b _ => by rw [hhash]⟩
    have hmem := mem_of_getElem? hk
    refine ⟨?_, .inl (by rw [hhash, hl.hash b hmem]),
      fun _ => ⟨fun howns' => howned hmem ?_, fun k' hk' => hunique hk hk'⟩⟩
    · rintro e (⟨r, k', hat, rfl⟩ | ⟨t, hs', k', ht, hhs', hk', rfl⟩)
      · refine absurd (At.mem_owned (show m.At i b r k' from ?_)) (howned hmem)
        rw [At, hinside.replicas, hinside.blocks r id] at hat
        exact hat
      rw [htransfers (ne_nil_of_mem hmem)] at ht
      rcases mem_append.mp ht with ht | ht
      · refine absurd ?_ (hl.unused b hmem)
        exact Multiset.mem_add.mpr (.inr (mem_pinned.mpr ⟨t, ht, mem_of_getElem? hk'⟩))
      · rw [mem_singleton.mp ht] at hhs' hk'
        rw [← Option.some_inj.mp hhs', hunique hk hk']
    · rwa [hinside.owned_eq (by simp)] at howns'

/-- **Blocks loaded by the connector** for a first part of the hashes.  If the load is complete at
once, a hash that a block of the replica has already makes the call fail, with the blocks that it
got. -/
theorem getFullBlocksFromHostPrefixCache_spec (hi : i < m.numReplicas) (howns : m.Owns i v held)
    (hnodup : hs.Nodup) (reply : LoadReply P) : Spec (getFullBlocksFromHostPrefixCache hs i reply) m
      (fun res m' => Inside i m m' ∧ ∃ v', m'.Owns i v' (↑res.1 + held) ∧ Found m' i v' hs res.1 ∧
        ∀ b ∈ v.refs, v'.hash b = v.hash b)
      fun _ m' => Inside i m m' ∧ ∃ v' leaked, m'.Owns i v' (leaked + held) ∧
        m.onlyUseKvConnectorLastLevelCache = false ∧ reply.isComplete = true ∧
        ∃ x ∈ hs, v.Cached x := by
  -- nothing is loaded
  have hempty : ∀ m' v', m'.Owns i v' held → Inside i m m' → (∀ b ∈ v.refs, v'.hash b = v.hash b) →
      Inside i m m' ∧ ∃ v', m'.Owns i v' (↑([] : List ℕ) + held) ∧ Found m' i v' hs [] ∧
        ∀ b ∈ v.refs, v'.hash b = v.hash b := fun m' v' hv' hinside hhash =>
    ⟨hinside, v', by simpa using hv', ⟨Nat.zero_le _, by simp⟩, hhash⟩
  rw [getFullBlocksFromHostPrefixCache]
  simp only [spec_bind, spec_getPool hi]
  by_cases hnil : hs = []
  · rw [if_pos hnil, spec_pure]
    exact hempty m v howns (Frame.refl i m) fun _ _ => rfl
  rw [if_neg hnil]
  simp only [howns.shows.numFreeBlocks, Int.toNat_natCast, spec_bind]
  have halloc := mapM_allocateDeviceBlock (range (min hs.length v.free.length)) howns hi (by simp)
  refine Returns.mono halloc ?_
  rintro bs _ ⟨hbs, p, rfl, hp⟩
  rw [length_range] at hbs
  have hbslen : bs.length = min hs.length v.free.length := by
    rw [hbs, length_take]
    omega
  have hfresh : ∀ b ∈ bs, b < v.numBlocks ∧ b ∉ v.refs ∧ b ∉ m.owned i + m.pinned i :=
    fun b hb => howns.fresh_of_take (hbs ▸ hb)
  have hbsnodup : bs.Nodup := hbs ▸ howns.shows.wf.nodup.sublist (take_sublist _ _)
  generalize hn : min reply.pages.length bs.length = n
  -- what was not loaded is given back
  have hsplit : (↑bs + held : Multiset ℕ) = ↑(bs.drop n) + (↑(bs.take n) + held) := by
    have hcoe : (bs : Multiset ℕ) = ↑(bs.take n) + ↑(bs.drop n) := by
      rw [Multiset.coe_add, take_append_drop]
    rw [hcoe]
    abel
  rw [hsplit] at hp
  rw [spec_onPool (show i < (m.setPool i p).numReplicas from hi), setPool_self]
  refine Returns.mono hp.forM_free ?_
  intro _ p₁ hp₁
  rw [setPool_setPool]
  generalize hv₁ : (bs.drop n).foldl PoolView.drop (bs.foldl PoolView.alloc v) = v₁ at hp₁
  have hhash : ∀ b, v₁.hash b = if b ∈ bs then none else v.hash b := by
    intro b
    rw [← hv₁, PoolView.foldl_drop_hash, PoolView.foldl_alloc_hash]
  have hnum : v₁.numBlocks = v.numBlocks := by
    rw [← hv₁, PoolView.foldl_drop_numBlocks, PoolView.foldl_alloc_numBlocks]
  have hkept : ∀ b ∈ v.refs, v₁.hash b = v.hash b := by
    intro b hb
    rw [hhash, if_neg fun hmem => (hfresh b hmem).2.1 hb]
  by_cases htake : bs.take n = []
  · rw [if_pos htake, spec_pure]
    rw [htake, Multiset.coe_nil, zero_add] at hp₁
    exact hempty _ v₁ hp₁ (Frame.setPool i m p₁) hkept
  rw [if_neg htake, spec_bind]
  have hmem : ∀ {b}, b ∈ bs.take n → b ∈ bs := fun hb => mem_of_mem_take hb
  have hhs : (hs.take (min hs.length v.free.length)).take n = hs.take n := by
    rw [take_take, min_eq_left (by omega)]
  rw [hhs]
  have hl : Loaded (m.setPool i p₁) i v₁ (hs.take n) (bs.take n) := by
    refine ⟨?_, hbsnodup.sublist (take_sublist _ _),
      hnodup.sublist (take_sublist _ _), fun b hb => ?_, fun b hb => ?_,
      fun b hb => (hfresh b (hmem hb)).2.2⟩
    · rw [length_take, length_take]
      omega
    · rw [hnum]
      exact (hfresh b (hmem hb)).1
    · rw [hhash, if_pos (hmem hb)]
  have hcached : ∀ x, v₁.Cached x → v.Cached x := by
    rintro x ⟨b, hb⟩
    rw [hhash] at hb
    split at hb
    · cases hb
    · exact ⟨b, hb⟩
  refine Spec.mono (commitOrTrack_spec (show i < (m.setPool i p₁).numReplicas from hi) hp₁ hl
    reply) ?_ ?_
  · rintro _ m' ⟨hinside, v', hv', hfound, hother⟩
    refine ⟨(Frame.setPool i m p₁).trans hinside, v', hv', ?_, fun b hb => ?_⟩
    · exact hfound.of_take
    · rw [hother b fun hbs' => (hfresh b (hmem hbs')).2.1 hb, hkept b hb]
  · rintro _ m' ⟨hinside, v', hv', honly, hcomplete, x, hx, hxc⟩
    exact ⟨(Frame.setPool i m p₁).trans hinside, v', _, hv', honly, hcomplete, x,
      mem_of_mem_take hx, hcached x hxc⟩

/-! ### The blocks of a request -/

theorem spec_replicaOf [ToString R] (hr : m.reqToReplica.lookup r = some i)
    {Q : ℕ → BlockManager H R P → Prop} : Spec (replicaOf r) m Q E ↔ Q i m := by
  rw [replicaOf]
  simp only [spec_bind, spec_get, hr, spec_pure]

theorem spec_replicaOf_none [ToString R] (hr : m.reqToReplica.lookup r = none)
    {Q : ℕ → BlockManager H R P → Prop} : Spec (replicaOf r) m Q E ↔ E (.valueError
      s!"Request is not claimed, so it holds no pages to work with: {r}") m := by
  rw [replicaOf]
  simp only [spec_bind, spec_get, hr, spec_throw]

/-- **The blocks found** for the hashes of a request behind the committed ones. -/
theorem getFullBlocksFromPrefixCache_spec [ToString R] (hcaching : m.enablePrefixCaching = true)
    (hr : m.reqToReplica.lookup r = some i) (hi : i < m.numReplicas) (howns : m.Owns i v held)
    (hnodup : (m.reqToHashes r).Nodup) (reply : LoadReply P) :
    Spec (getFullBlocksFromPrefixCache r reply) m
      (fun res m' => Inside i m m' ∧ ∃ v', m'.Owns i v' (↑res.1 + held) ∧
        Found m' i v' ((m.reqToHashes r).drop (m.numCommittedBlocks r)) res.1)
      fun _ m' => Inside i m m' ∧ ∃ v' leaked, m'.Owns i v' (leaked + held) ∧
        m.onlyUseKvConnectorLastLevelCache = false ∧ reply.isComplete = true ∧
        ¬ Closed v ((m.reqToHashes r).drop (m.numCommittedBlocks r)) := by
  generalize hhs : (m.reqToHashes r).drop (m.numCommittedBlocks r) = hs
  have hnodup' : hs.Nodup := hhs ▸ hnodup.sublist (drop_sublist _ _)
  rw [getFullBlocksFromPrefixCache]
  simp only [spec_bind, spec_get, hcaching, Bool.not_true, Bool.false_eq_true, if_false,
    spec_replicaOf hr, hhs]
  refine Returns.mono (getFullBlocksFromDevicePrefixCache_spec hi howns hnodup') ?_
  rintro bs _ ⟨mem, p, v₁, rfl, hv₁, hlen, hbs, hclosed⟩
  have hinside : Inside i m ((m.setMemory mem).setPool i p) :=
    { Frame.setPool i (m.setMemory mem) p with }
  split
  · rw [spec_pure]
    have hfound := Found.append hv₁ hlen hbs
      (⟨Nat.zero_le _, by simp⟩ : Found _ i v₁ (hs.drop bs.length) [])
    rw [append_nil] at hfound
    exact ⟨hinside, v₁, hv₁, hfound⟩
  rw [spec_bind]
  have hi' : i < ((m.setMemory mem).setPool i p).numReplicas := hi
  refine Spec.mono (getFullBlocksFromHostPrefixCache_spec hi' hv₁
    (hnodup'.sublist (drop_sublist bs.length _)) reply) ?_ ?_
  · rintro ⟨bs', isComplete⟩ m' ⟨hinside', v', hv', hfound, hkept⟩
    have hbs' : ∀ k b : ℕ, bs[k]? = some b → v'.hash b = hs[k]? := by
      intro k b hk
      rw [hkept b, hbs k b hk]
      rw [hv₁.refs]
      simp [mem_of_getElem? hk]
    have hrefs : (↑bs' + (↑bs + held) : Multiset ℕ) = ↑(bs ++ bs') + held := by
      rw [← Multiset.coe_add]
      abel
    rw [hrefs] at hv'
    exact ⟨hinside.trans hinside', v', hv', hfound.append hv' hlen hbs'⟩
  · rintro _ m' ⟨hinside', v', leaked, hv', honly, hcomplete, x, hx, hxc⟩
    refine ⟨hinside.trans hinside', v', leaked + ↑bs, by rwa [add_assoc], honly, hcomplete,
      fun hc => ?_⟩
    obtain ⟨k, hk⟩ := mem_iff_getElem?.mp hx
    rw [getElem?_drop] at hk
    exact hclosed honly hc _ x (by omega) hk hxc

end BlockManager
