/-
The references to blocks over whole runs of a block manager.

* `Inv` — the invariant of a block manager; it says whose the references are;
* `Op`, `run` — the operations; the connector and the requests they are called with are arbitrary;
* `Op.Safe` — when an operation loses no reference;
* `Reachable.counted` — every block of a pool is referenced as often as requests and transfers
  hold it.
-/
import MojoMac.BlockReuse

open Function StateSpec List

set_option linter.unusedSectionVars false

namespace BlockManager

variable {H R P : Type} [DecidableEq H] [DecidableEq R] {m m' : BlockManager H R P} {i b : ℕ}
  {r : R} {v : PoolView H} {held : Multiset ℕ} {lost lost' : ℕ → Multiset ℕ} {p : BlockPool H}

/-- The invariant of a manager some of whose blocks have references, `lost`, that nobody will
drop. -/
structure Inv (m : BlockManager H R P) (lost : ℕ → Multiset ℕ) : Prop where
  owns : ∀ i < m.numReplicas, ∃ v, m.Owns i v (lost i)
  unclaimed : ∀ r, m.reqToReplica.lookup r = none → m.reqToBlocks r = []
  committed : ∀ r, m.numCommittedBlocks r ≤ (m.reqToBlocks r).length
  hashes : ∀ r, (m.reqToHashes r).Nodup

namespace Inv

/-- A change to one replica and some of its requests. -/
theorem of_frame (h : m.Inv lost) {S : Set R} (hr : ∀ r ∈ S, m.reqToReplica.lookup r = some i)
    (hf : Frame i S m m') (howns : i < m.numReplicas → ∃ v, m'.Owns i v (lost' i))
    (hlost : ∀ j ≠ i, lost' j = lost j)
    (hS : ∀ r ∈ S, m'.numCommittedBlocks r ≤ (m'.reqToBlocks r).length ∧ (m'.reqToHashes r).Nodup) :
    m'.Inv lost' where
  owns j hj := by
    rw [hf.config] at hj
    by_cases hji : j = i
    · exact hji ▸ howns (hji ▸ hj)
    · obtain ⟨v, hv⟩ := h.owns j hj
      refine ⟨v, hf.owns (fun r hrS => ?_) hji (hlost j hji ▸ hv)⟩
      rw [hr r hrS, ne_eq, Option.some_inj]
      exact Ne.symm hji
  unclaimed r hnone := by
    rw [hf.replicas] at hnone
    have hrS : r ∉ S := fun hrS => by
      rw [hr r hrS] at hnone
      cases hnone
    rw [hf.blocks r hrS]
    exact h.unclaimed r hnone
  committed r := by
    by_cases hrS : r ∈ S
    · exact (hS r hrS).1
    · rw [numCommittedBlocks, blockSize, hf.committed r hrS, hf.blocks r hrS, hf.config]
      exact h.committed r
  hashes r := by
    by_cases hrS : r ∈ S
    · exact (hS r hrS).2
    · rw [hf.hashes r hrS]
      exact h.hashes r

/-- A change to one request and its replica. -/
theorem of_request (h : m.Inv lost) (hr : m.reqToReplica.lookup r = some i) (hf : Frame i {r} m m')
    (howns : m'.Owns i v (lost' i)) (hlost : ∀ j ≠ i, lost' j = lost j)
    (hcommitted : m'.numCommittedBlocks r ≤ (m'.reqToBlocks r).length)
    (hhashes : m'.reqToHashes r = m.reqToHashes r) : m'.Inv lost' := by
  refine h.of_frame (by simpa using hr) hf (fun _ => ⟨v, howns⟩) hlost ?_
  rintro _ rfl
  exact ⟨hcommitted, hhashes ▸ h.hashes _⟩

/-- A change to one replica only. -/
theorem of_inside (h : m.Inv lost) (hin : Inside i m m')
    (howns : i < m.numReplicas → ∃ v, m'.Owns i v (lost' i)) (hlost : ∀ j ≠ i, lost' j = lost j) :
    m'.Inv lost' :=
  h.of_frame (by simp) hin howns hlost (by simp)

/-- More hashes of a request become known, wherever it is. -/
theorem setHashes (h : m.Inv lost) {new : List H} (hnodup : (m.reqToHashes r ++ new).Nodup) :
    (m.setHashes r (m.reqToHashes r ++ new)).Inv lost where
  owns j hj := by
    obtain ⟨v, hv⟩ := h.owns j hj
    by_cases hr : m.reqToReplica.lookup r = some j
    · exact ⟨v, hv.setHashes hr new⟩
    · exact ⟨v, (Frame.setHashes (j + 1) r m _).owns (by simpa using hr) (by omega) hv⟩
  unclaimed := h.unclaimed
  committed := h.committed
  hashes r' := by
    by_cases hrr : r' = r
    · subst hrr
      change (update m.reqToHashes r' _ r').Nodup
      rwa [update_self]
    · change (update m.reqToHashes r _ r').Nodup
      rw [update_of_ne hrr]
      exact h.hashes r'

/-- A call starts with the pool of a request, or with an error. -/
theorem spec_pool [ToString R] (h : m.Inv lost) {α : Type}
    {k : ℕ → BlockPool H → PyM (BlockManager H R P) α} {Q : α → BlockManager H R P → Prop}
    {E : PyError → BlockManager H R P → Prop} (herr : ∀ e, E e m)
    (hok : ∀ i v, m.reqToReplica.lookup r = some i → i < m.numReplicas → m.Owns i v (lost i) →
      Spec (k i (m.deviceBlockPools i)) m Q E) :
    Spec (do let i ← replicaOf r; k i (← getPool i)) m Q E := by
  simp only [spec_bind]
  cases hr : m.reqToReplica.lookup r with
  | none => exact (spec_replicaOf_none hr).mpr (herr _)
  | some i =>
    rw [spec_replicaOf hr]
    by_cases hi : i < m.numReplicas
    · obtain ⟨v, hv⟩ := h.owns i hi
      exact (spec_getPool hi).mpr (hok i v hr hi hv)
    · exact (spec_getPool_of_le (not_lt.mp hi)).mpr (herr _)

end Inv

theorem init_inv (config : ManagerConfig H) (kvMemory : ℕ → ℕ → P) :
    (init config kvMemory : BlockManager H R P).Inv fun _ => 0 where
  owns i _ := by
    refine ⟨_, BlockPool.init_shows config.totalNumBlocks, rfl, ?_, ?_, ?_, ?_, ?_, ?_⟩
    · simp [owned, pinned, requestsOn, init]
    · rintro b r k r' k' - ⟨hr, -⟩
      simp [init] at hr
    · rintro b e e' (⟨r, k, ⟨hr, -⟩, -⟩ | ⟨t, hs, k, ht, -⟩)
      · simp [init] at hr
      · simp [init] at ht
    · rintro b x e hb
      cases hb
    · simp [init]
    · simp [init]
  unclaimed _ _ := rfl
  committed r := by simp [numCommittedBlocks, init]
  hashes _ := nodup_nil

/-- What a turn of the loop that commits blocks leaves as it is. -/
structure Kept (i : ℕ) (r : R) (m m' : BlockManager H R P) : Prop where
  frame : Frame i {r} m m'
  hashes : m'.reqToHashes r = m.reqToHashes r
  committed : m'.reqToCommittedIdx r = m.reqToCommittedIdx r
  length : (m'.reqToBlocks r).length = (m.reqToBlocks r).length

theorem Kept.refl (i : ℕ) (r : R) (m : BlockManager H R P) : Kept i r m m :=
  ⟨.refl i m, rfl, rfl, rfl⟩

theorem Kept.trans {m'' : BlockManager H R P} (h : Kept i r m m') (h' : Kept i r m' m'') :
    Kept i r m m'' :=
  ⟨h.frame.trans h'.frame, h'.hashes.trans h.hashes, h'.committed.trans h.committed,
    h'.length.trans h.length⟩

/-- The block of a request is replaced by one that has its hash. -/
theorem Owns.replace (howns : m.Owns i v held) (hr : m.reqToReplica.lookup r = some i)
    {k twin : ℕ} {x : H} (hb : (m.reqToBlocks r)[k]? = some b) (hx : (m.reqToHashes r)[k]? = some x)
    (htwin : v.hash twin = some x) (hp : p.Shows ((v.touch twin).drop b)) :
    ((m.setPool i p).setBlocks r ((m.reqToBlocks r).set k twin)).Owns i ((v.touch twin).drop b)
      held := by
  obtain ⟨-, p₁, -, hp₁⟩ := returns_iff.mp
    (howns.shows.touch (howns.shows.wf.lt_of_hash twin x htwin))
  obtain ⟨hlt, hget⟩ := List.getElem_of_getElem? hb
  -- the twin is taken, put in the list, and the block is given back
  have hlist : ((m.setPool i p₁).setBlocks r ((m.reqToBlocks r).set k twin)).Owns i (v.touch twin)
      (b ::ₘ held) := by
    refine (howns.setPool_touch hp₁).setBlocks hr ?_ fun j b' hj => ?_
    · have hset : ((m.reqToBlocks r).set k twin).Perm (twin :: (m.reqToBlocks r).eraseIdx k) :=
        set_perm_cons_eraseIdx hlt twin
      have hold : (m.reqToBlocks r).Perm (b :: (m.reqToBlocks r).eraseIdx k) := by
        rw [← hget]
        exact (getElem_cons_eraseIdx_perm hlt).symm
      change b ::ₘ held + ↑((m.reqToBlocks r).set k twin) = twin ::ₘ held + ↑(m.reqToBlocks r)
      rw [Multiset.coe_eq_coe.mpr hset, Multiset.coe_eq_coe.mpr hold, ← Multiset.cons_coe,
        ← Multiset.cons_coe, ← Multiset.singleton_add b, ← Multiset.singleton_add b,
        ← Multiset.singleton_add twin, ← Multiset.singleton_add twin]
      abel
    · by_cases hjk : j = k
      · subst hjk
        rw [getElem?_set_self hlt, Option.some_inj] at hj
        subst hj
        refine .inr ⟨fun e he => ?_, .inr ?_, fun hnone => ?_⟩
        · exact (howns.named twin x e htwin he).trans hx.symm
        · exact htwin.trans hx.symm
        · rw [show (v.touch twin).hash twin = some x from htwin] at hnone
          cases hnone
      · rw [getElem?_set_ne (Ne.symm hjk)] at hj
        exact .inl hj
  have hfinal := hlist.setPool_drop hp
  have hstate : ((m.setPool i p₁).setBlocks r ((m.reqToBlocks r).set k twin)).setPool i p
      = (m.setPool i p).setBlocks r ((m.reqToBlocks r).set k twin) := by
    simp only [BlockManager.setBlocks, BlockManager.setPool, update_idem]
  rwa [hstate] at hfinal

/-! ### The blocks of a request -/

section Blocks

variable (hi : i < m.numReplicas) (hr : m.reqToReplica.lookup r = some i) (howns : m.Owns i v held)

include hi hr howns

/-- The last block of a request is given back. -/
theorem popBlock_spec {l : List ℕ} (hl : m.reqToBlocks r = l ++ [b]) :
    Returns (popBlock r i) m fun _ m' => ∃ p, m' = (m.setBlocks r l).setPool i p ∧
      m'.Owns i (v.drop b) held := by
  rw [Returns, popBlock]
  simp only [spec_bind, spec_get, hl, getLast?_concat, spec_modify, dropLast_concat]
  rw [spec_onPool (show i < (m.setBlocks r l).numReplicas from hi)]
  have hpop : ((m.setBlocks r l).setPool i ((m.setBlocks r l).deviceBlockPools i)).Owns i v
      (b ::ₘ held) := by
    rw [setPool_eq_self]
    exact howns.pop hr hl
  exact Spec.imp hpop.free (fun _ p hp => ⟨p, rfl, hp⟩)

/-- The blocks behind the first `n` are given back, the last one first. -/
theorem forM_popBlock (xs : List ℕ) {n : ℕ} (hlen : (m.reqToBlocks r).length = n + xs.length) :
    Returns (xs.forM fun _ => popBlock r i) m fun _ m' => ∃ p,
      m' = (m.setBlocks r ((m.reqToBlocks r).take n)).setPool i p ∧
      m'.Owns i (((m.reqToBlocks r).drop n).reverse.foldl PoolView.drop v) held := by
  induction xs generalizing m v with
  | nil =>
    rw [length_nil, add_zero] at hlen
    refine ⟨m.deviceBlockPools i, ?_, ?_⟩
    · rw [take_of_length_le hlen.le, setBlocks, update_eq_self, setPool_eq_self]
    · rw [drop_of_length_le hlen.le]
      exact howns
  | cons x xs ih =>
    rw [length_cons] at hlen
    obtain ⟨l, b, hl⟩ : ∃ l b, m.reqToBlocks r = l ++ [b] := by
      rcases eq_nil_or_concat (m.reqToBlocks r) with hnil | ⟨l, b, hl⟩
      · rw [hnil, length_nil] at hlen
        omega
      · exact ⟨l, b, by rw [hl, concat_eq_append]⟩
    have hllen : l.length = n + xs.length := by
      rw [hl, length_append, length_singleton] at hlen
      omega
    change Returns (popBlock r i >>= fun _ => xs.forM fun _ => popBlock r i) m _
    refine Returns.bind (popBlock_spec hi hr howns hl) ?_
    rintro _ _ ⟨p, rfl, hp⟩
    have hblocks : ((m.setBlocks r l).setPool i p).reqToBlocks r = l := setBlocks_self m r l
    refine Returns.mono (ih hi hr hp (by rw [hblocks, hllen])) ?_
    rintro _ _ ⟨p', rfl, hp'⟩
    rw [hblocks] at hp' ⊢
    have htake : (m.reqToBlocks r).take n = l.take n := by
      rw [hl, take_append_of_le_length (by omega)]
    have hdrop : ((m.reqToBlocks r).drop n).reverse = b :: (l.drop n).reverse := by
      rw [hl, drop_append_of_le_length (by omega), reverse_append]
      rfl
    have hstate : (((m.setBlocks r l).setPool i p).setBlocks r (l.take n)).setPool i p'
        = (m.setBlocks r (l.take n)).setPool i p' := by
      simp only [setBlocks, setPool, update_idem]
    rw [htake, hdrop, foldl_cons]
    rw [hstate] at hp' ⊢
    exact ⟨p', rfl, hp'⟩

/-- A new block for a request. -/
theorem pushBlock_spec [ToString R] {rest : List ℕ} (hfree : v.free = b :: rest) :
    Returns (pushBlock r i) m fun _ m' => ∃ p,
      m' = (m.setPool i p).setBlocks r (m.reqToBlocks r ++ [b]) ∧ m'.Owns i (v.alloc b) held := by
  rw [Returns, pushBlock, spec_bind]
  refine Spec.imp (allocateDeviceBlock_spec howns hi hfree) ?_
  rintro _ _ ⟨rfl, p, rfl, hp⟩
  rename_i b
  have hnot : b ∉ v.refs := ((howns.shows.wf.mem_free b).mp (hfree ▸ mem_cons_self)).2
  rw [← Multiset.singleton_add, ← Multiset.coe_singleton] at hp
  refine ⟨p, rfl, hp.append hr fun k b' hk => ?_⟩
  cases k with
  | succ k => cases hk
  | zero =>
    -- the new block was free, so it is nowhere else
    obtain rfl : b = b' := Option.some.inj hk
    refine ⟨fun e he => absurd he (howns.not_expects hnot e), .inl (by simp [PoolView.alloc]),
      fun _ => ⟨fun hmem => hnot ?_, fun k' hk' => ?_⟩⟩
    · rw [howns.refs]
      exact Multiset.mem_add.mpr (.inl (Multiset.mem_add.mpr (.inl hmem)))
    · cases k' with
      | zero => rfl
      | succ k' => cases hk'

/-- New blocks for a request, in the order of the queue. -/
theorem forM_pushBlock [ToString R] (xs : List ℕ) (hlen : xs.length ≤ v.free.length) :
    Returns (xs.forM fun _ => pushBlock r i) m fun _ m' => ∃ p,
      m' = (m.setPool i p).setBlocks r (m.reqToBlocks r ++ v.free.take xs.length) ∧
      m'.Owns i ((v.free.take xs.length).foldl PoolView.alloc v) held := by
  induction xs generalizing m v with
  | nil =>
    refine ⟨m.deviceBlockPools i, ?_, howns⟩
    rw [length_nil, take_zero, append_nil, setPool_eq_self, setBlocks, update_eq_self]
  | cons x xs ih =>
    cases hfree : v.free with
    | nil =>
      rw [hfree] at hlen
      cases hlen
    | cons b rest =>
      have hrest : (v.alloc b).free = rest := by
        change v.free.erase b = rest
        rw [hfree, erase_cons_head]
      rw [hfree, length_cons, length_cons] at hlen
      change Returns (pushBlock r i >>= fun _ => xs.forM fun _ => pushBlock r i) m _
      refine Returns.bind (pushBlock_spec hi hr howns hfree) ?_
      rintro _ _ ⟨p, rfl, hp⟩
      have hblocks : ((m.setPool i p).setBlocks r (m.reqToBlocks r ++ [b])).reqToBlocks r
          = m.reqToBlocks r ++ [b] := setBlocks_self ..
      refine Returns.mono (ih hi hr hp (by rw [hrest]; omega)) ?_
      rintro _ _ ⟨p', rfl, hp'⟩
      rw [hblocks, hrest, append_assoc] at hp' ⊢
      have hstate : ∀ l, (((m.setPool i p).setBlocks r (m.reqToBlocks r ++ [b])).setPool i p').setBlocks
          r l = (m.setPool i p').setBlocks r l := by
        intro l
        simp only [setBlocks, setPool, update_idem]
      rw [hstate] at hp' ⊢
      exact ⟨p', rfl, hp'⟩

/-- **One turn**: the block gets the hash, or the block that has the hash takes its place. -/
theorem commitBlock_spec (k : ℕ) :
    Spec (commitBlock r i k) m (fun _ m' => Kept i r m m' ∧ (∃ v', m'.Owns i v' held) ∧
      k < (m.reqToBlocks r).length ∧ k < (m.reqToHashes r).length) fun _ m' => m' = m := by
  rw [commitBlock, spec_get_bind]
  cases hb : (m.reqToBlocks r)[k]? with
  | none => rfl
  | some b =>
    rw [spec_get_bind]
    cases hx : (m.reqToHashes r)[k]? with
    | none => rfl
    | some x =>
      have hat : m.At i b r k := ⟨hr, hb⟩
      have hexp : m.Expects i b (some x) := hx ▸ hat.expects
      have hmem : b ∈ v.refs := by
        rw [howns.refs]
        simp [hat.mem_owned]
      have hhash : v.hash b = none ∨ v.hash b = some x := by
        cases hvb : v.hash b with
        | none => exact .inl rfl
        | some y => exact .inr (howns.named b y _ hvb hexp).symm
      have hklt : k < (m.reqToBlocks r).length := (List.getElem_of_getElem? hb).1
      have hxlt : k < (m.reqToHashes r).length := (List.getElem_of_getElem? hx).1
      have hkept : ∀ p, Kept i r m (m.setPool i p) := fun p =>
        ⟨.setPool i m p, rfl, rfl, rfl⟩
      simp only [spec_bind, spec_onPool hi]
      refine Returns.mono (howns.shows.getOrCommitIntoPrefixCache hmem hhash) ?_
      rintro res p (⟨-, rfl, hp⟩ | ⟨hnone, hcached, rfl, hp⟩ | ⟨twin, hnone, htwin, rfl, hp⟩)
      · -- the block has the hash already
        exact ⟨hkept p, ⟨v, howns.setPool hp rfl rfl (fun _ h => .inl h) fun _ _ h => .inl h⟩,
          hklt, hxlt⟩
      · exact ⟨hkept p, ⟨_, howns.setPool_commit (fun e he => howns.agree b e _ he hexp) hp⟩,
          hklt, hxlt⟩
      -- a twin takes the place of the block
      refine ⟨⟨(Frame.setPool i m p).trans (.setBlocks i r _ _), rfl, rfl, ?_⟩,
        ⟨(v.touch twin).drop b, ?_⟩, hklt, hxlt⟩
      · rw [setBlocks_self, length_set]
        rfl
      · exact howns.replace hr hb hx htwin hp

/-- The loop over the blocks that were filled. -/
theorem forM_commitBlock (ks : List ℕ) :
    Spec (ks.forM (commitBlock r i)) m (fun _ m' => Kept i r m m' ∧ (∃ v', m'.Owns i v' held) ∧
      ∀ k ∈ ks, k < (m.reqToBlocks r).length ∧ k < (m.reqToHashes r).length)
      fun _ m' => Kept i r m m' ∧ ∃ v', m'.Owns i v' held := by
  refine Spec.forM (I := fun done m' => Kept i r m m' ∧ (∃ v', m'.Owns i v' held) ∧
      ∀ k ∈ done, k < (m.reqToBlocks r).length ∧ k < (m.reqToHashes r).length) ks ?_
    ⟨.refl i r m, ⟨v, howns⟩, by simp⟩
  rintro done k - - m₁ ⟨hkept, ⟨v₁, hv₁⟩, hdone⟩
  refine Spec.mono (commitBlock_spec (hkept.frame.config ▸ hi) (hkept.frame.replicas ▸ hr) hv₁ k)
    ?_ ?_
  · rintro _ m₂ ⟨hkept₂, howns₂, hlt, hxlt⟩
    refine ⟨hkept.trans hkept₂, howns₂, fun k' hk' => ?_⟩
    rcases mem_append.mp hk' with hk' | hk'
    · exact hdone k' hk'
    · rw [mem_singleton.mp hk', ← hkept.length, ← hkept.hashes]
      exact ⟨hlt, hxlt⟩
  · rintro _ _ rfl
    exact ⟨hkept, v₁, hv₁⟩

end Blocks

/-- A sequence of different hashes is to be offloaded. -/
theorem Owns.addRun (howns : m.Owns i v held) {run : List H} (hrun : run.Nodup) :
    (m.setOffloads i (m.pendingOffloads i ++ [run])).Owns i v held := by
  refine { howns with runs := fun run' hrun' => ?_ }
  change run' ∈ update m.pendingOffloads i _ i at hrun'
  rw [update_self] at hrun'
  rcases mem_append.mp hrun' with hrun' | hrun'
  · exact howns.runs run' hrun'
  · rwa [mem_singleton.mp hrun']

@[simp] theorem setCommittedIdx_self (m : BlockManager H R P) (r : R) (n : ℕ) :
    (m.setCommittedIdx r n).reqToCommittedIdx r = n :=
  update_self ..

theorem Owns.setCommittedIdx (howns : m.Owns i v held) (r : R) (n : ℕ) :
    (m.setCommittedIdx r n).Owns i v held :=
  { howns with }

/-- **Committing** the blocks of a request loses no reference, whether it raises or not. -/
theorem commitToPrefixCache_spec [ToString R] (h : m.Inv lost) (ctx : TextContext R) :
    Spec (commitToPrefixCache ctx) m (fun _ m' => m'.Inv lost) fun _ m' => m'.Inv lost := by
  rw [commitToPrefixCache]
  refine h.spec_pool (fun _ => h) fun i v hr hi hv => ?_
  simp only [spec_bind, spec_get]
  generalize hn : m.numCommittedBlocks ctx.requestId = n
  generalize hn' : m.numComputedBlocks ctx = n'
  have hcommitted := h.committed ctx.requestId
  refine Spec.mono (forM_commitBlock hi hr hv _) ?_ ?_
  · rintro _ m₁ ⟨hkept, ⟨v₁, hv₁⟩, hlt⟩
    rw [spec_modify, spec_modify]
    have hle : n' ≤ (m.reqToBlocks ctx.requestId).length := by
      by_cases hnn : n' ≤ n
      · omega
      · have hlast := (hlt (n' - 1) (mem_range'_1.mpr (by omega))).1
        omega
    have hqueue : Inside i m₁ (queueOffload ctx.requestId i n n' m₁) ∧
        ∃ v', (queueOffload ctx.requestId i n n' m₁).Owns i v' (lost i) := by
      rw [queueOffload]
      split
      · refine ⟨Frame.setOffloads i m₁ _, v₁, hv₁.addRun ?_⟩
        rw [hkept.hashes]
        exact (h.hashes _).sublist ((drop_sublist _ _).trans (take_sublist _ _))
      · exact ⟨Frame.refl i m₁, v₁, hv₁⟩
    obtain ⟨hinside, v₂, hv₂⟩ := hqueue
    refine h.of_request hr ((hkept.frame.trans (.of_inside hinside)).trans
      (.setCommittedIdx i _ _ _)) (hv₂.setCommittedIdx _ _) (fun _ _ => rfl) ?_
      ((hinside.hashes _ id).trans hkept.hashes)
    rw [numCommittedBlocks, setCommittedIdx_self]
    change _ ≤ ((queueOffload ctx.requestId i n n' m₁).reqToBlocks ctx.requestId).length
    rw [hinside.blocks _ id, hkept.length]
    exact (Nat.div_le_of_le_mul (Nat.mul_comm _ _).le).trans hle
  · rintro _ m₁ ⟨hkept, v₁, hv₁⟩
    refine h.of_request hr hkept.frame hv₁ (fun _ _ => rfl) ?_ hkept.hashes
    rw [numCommittedBlocks, blockSize, hkept.committed, hkept.length, hkept.frame.config]
    exact hcommitted

/-! ### Transfers -/

/-- The blocks of a run have its hashes. -/
theorem resolveRun_spec (hp : p.Shows v) (run : List H) :
    ∃ n, (resolveRun p run).map v.hash = (run.take n).map some := by
  induction run with
  | nil => exact ⟨0, rfl⟩
  | cons x run ih =>
    rw [resolveRun]
    cases hb : p.prefixCache.lookup x with
    | none => exact ⟨0, rfl⟩
    | some b =>
      obtain ⟨n, hn⟩ := ih
      exact ⟨n + 1, by simp [hn, (hp.lookup x b).mp hb]⟩

theorem offloadRun_spec (hi : i < m.numReplicas) (howns : m.Owns i v held) {run : List H × Bool}
    (hrun : run.1.Nodup) :
    Returns (offloadRun i run) m fun _ m' => Inside i m m' ∧ ∃ v', m'.Owns i v' held := by
  obtain ⟨n, hn⟩ := resolveRun_spec howns.shows run.1
  have hsome : ∀ b ∈ resolveRun (m.deviceBlockPools i) run.1, ∃ x, v.hash b = some x := by
    intro b hb
    have hmem : v.hash b ∈ (run.1.take n).map some := hn ▸ mem_map_of_mem hb
    obtain ⟨x, -, hx⟩ := mem_map.mp hmem
    exact ⟨x, hx.symm⟩
  have hnodup : (resolveRun (m.deviceBlockPools i) run.1).Nodup := by
    refine Nodup.of_map v.hash ?_
    rw [hn]
    exact (hrun.sublist (take_sublist _ _)).map (Option.some_injective H)
  rw [Returns, offloadRun]
  simp only [spec_bind, spec_get]
  split
  · have htrack := trackTransfer_spec hi howns
      (t := ⟨[], resolveRun (m.deviceBlockPools i) run.1, none⟩) (fun b hb => ?_) hnodup
      (fun hs hhs => by cases hhs) (fun hs k b hhs => by cases hhs)
    · exact Spec.imp htrack (fun _ m' ⟨hinside, v', hv', _⟩ => ⟨hinside, v', hv'⟩)
    · obtain ⟨x, hx⟩ := hsome b hb
      exact howns.shows.wf.lt_of_hash b x hx
  · exact ⟨Frame.refl i m, v, howns⟩

/-- **Offloading** pins the blocks of the runs that are not complete at once. -/
theorem offload_spec (h : m.Inv lost) (i : ℕ) (isComplete : ℕ → Bool) :
    Spec (offload i isComplete) m (fun _ m' => m'.Inv lost) fun _ m' => m'.Inv lost := by
  rw [offload]
  simp only [spec_bind]
  by_cases hi : i < m.numReplicas
  · rw [spec_getPool hi]
    simp only [spec_get]
    obtain ⟨v, hv⟩ := h.owns i hi
    generalize hruns : (m.pendingOffloads i).zip
      ((range (m.pendingOffloads i).length).map isComplete) = runs
    have hnodup : ∀ run ∈ runs, run.1.Nodup := by
      intro run hrun
      rw [← hruns] at hrun
      exact hv.runs run.1 (of_mem_zip hrun).1
    have hloop := Spec.forM (I := fun _ m' => Inside i m m' ∧ ∃ v', m'.Owns i v' (lost i))
      (g := offloadRun i) (E := fun _ _ => False) runs (fun done run todo hsplit m₁ hm₁ => by
        obtain ⟨hinside, v₁, hv₁⟩ := hm₁
        refine Spec.imp (offloadRun_spec (hinside.config ▸ hi) hv₁ (hnodup run ?_)) ?_
        · rw [hsplit]
          simp
        · rintro _ m₂ ⟨hinside₂, howns₂⟩
          exact ⟨hinside.trans hinside₂, howns₂⟩) ⟨Frame.refl i m, v, hv⟩
    refine Returns.mono hloop ?_
    rintro _ m₁ ⟨hinside, v₁, hv₁⟩
    refine h.of_inside (hinside.trans (.setOffloads i m₁ [])) (fun _ => ⟨v₁, ?_⟩) fun _ _ => rfl
    refine { hv₁ with runs := fun run hrun => ?_ }
    change run ∈ update m₁.pendingOffloads i [] i at hrun
    rw [update_self] at hrun
    cases hrun
  · exact (spec_getPool_of_le (not_lt.mp hi)).mpr h

/-- Loaded blocks that arrived are committed, except those that another commit was faster for. -/
theorem forM_commitArrived {loaded : List (ℕ × H)} (h : (m.setPool i p).Owns i v held)
    (hloaded : ∀ q ∈ loaded, q.1 ∈ v.refs ∧ m.Expects i q.1 (some q.2)) :
    Returns (loaded.forM commitArrived) p fun _ p' => ∃ v', (m.setPool i p').Owns i v' held := by
  refine Spec.imp (Spec.forM (I := fun _ p' => ∃ v', (m.setPool i p').Owns i v' held ∧
    v'.refs = v.refs) loaded ?_ ⟨v, h, rfl⟩) (fun _ p' ⟨v', hv', _⟩ => ⟨v', hv'⟩)
  rintro done q todo hsplit p₁ ⟨v₁, hv₁, hrefs⟩
  obtain ⟨hmem, hexp⟩ := hloaded q (by rw [hsplit]; simp)
  rw [commitArrived]
  simp only [spec_bind, spec_get]
  split_ifs with hcond
  · rw [hv₁.poolShows.hash, hv₁.poolShows.cached_iff] at hcond
    have hcommit := hv₁.commit (hv₁.shows.wf.lt_of_refs q.1 (hrefs ▸ hmem)) hcond.1 hcond.2
      fun e he => hv₁.agree q.1 e _ he hexp
    exact Spec.imp hcommit (fun _ p₂ hp₂ => ⟨_, hp₂, hrefs⟩)
  · exact ⟨v₁, hv₁, hrefs⟩

variable {t : PendingTransfer H P}

/-- The commits at the end of a load, for a manager with the transfers `ts`. -/
theorem commitHashes_spec (hi : i < m.numReplicas) {ts : List (PendingTransfer H P)} (ht : t ∈ ts)
    {hs : List H} (hhs : t.commitHashes = some hs) (h : (m.setTransfers i ts).Owns i v held) :
    Returns (onPool i ((t.blocks.zip hs).forM commitArrived)) m fun _ m' => ∃ p,
      m' = m.setPool i p ∧ ∃ v', (m'.setTransfers i ts).Owns i v' held := by
  have hmem : t ∈ (m.setTransfers i ts).pendingTransfers i := by rwa [Owns.setTransfers_self]
  have hloaded : ∀ q ∈ t.blocks.zip hs, q.1 ∈ v.refs ∧
      (m.setTransfers i ts).Expects i q.1 (some q.2) := by
    intro q hq
    obtain ⟨k, hk⟩ := mem_iff_getElem?.mp hq
    obtain ⟨hb, hx⟩ := getElem?_zip_eq_some.mp hk
    have hexp : (m.setTransfers i ts).Expects i q.1 (some q.2) :=
      .inr ⟨t, hs, k, hmem, hhs, hb, hx.symm⟩
    refine ⟨?_, hexp⟩
    rw [h.refs]
    exact Multiset.mem_add.mpr (.inl hexp.mem)
  rw [Returns, spec_onPool hi]
  have h' : ((m.setTransfers i ts).setPool i (m.deviceBlockPools i)).Owns i v held := by
    rw [show m.deviceBlockPools i = (m.setTransfers i ts).deviceBlockPools i from rfl,
      setPool_eq_self]
    exact h
  exact Spec.imp (forM_commitArrived h' hloaded) (fun _ p hp => ⟨p, rfl, hp⟩)

/-- **A transfer is finished**: its blocks are committed, if it was a load, and unpinned. -/
theorem finishTransfer_spec (hi : i < m.numReplicas) {as bs : List (PendingTransfer H P)}
    (h : (m.setTransfers i (as ++ t :: bs)).Owns i v held) :
    Returns (finishTransfer i t) m fun _ m' => Inside i m m' ∧
      ∃ v', (m'.setTransfers i (as ++ bs)).Owns i v' held := by
  obtain ⟨mem, hmem⟩ := writePages_eq m i t.blocks t.pages
  have hin : t ∈ as ++ t :: bs := by simp
  have hlen := (h.transfers t (by rwa [Owns.setTransfers_self])).2
  -- the blocks are given back in the end
  have hfree : ∀ p v', (((m.setMemory mem).setPool i p).setTransfers i (as ++ t :: bs)).Owns i v'
      held → Returns (onPool i (t.blocks.forM BlockPool.freeBlock)) ((m.setMemory mem).setPool i p)
      fun _ m' => Inside i m m' ∧ ∃ v', (m'.setTransfers i (as ++ bs)).Owns i v' held := by
    intro p v' hv'
    rw [Returns, spec_onPool (show i < ((m.setMemory mem).setPool i p).numReplicas from hi),
      setPool_self]
    have hfinish : (((m.setMemory mem).setTransfers i (as ++ bs)).setPool i p).Owns i v'
        (↑t.blocks + held) := hv'.finish
    refine Spec.imp hfinish.forM_free (fun _ p' hp' => ?_)
    rw [setPool_setPool]
    exact ⟨{ Frame.setPool i (m.setMemory mem) p' with }, _, hp'⟩
  have hstart : (((m.setMemory mem).setPool i (m.deviceBlockPools i)).setTransfers i
      (as ++ t :: bs)).Owns i v held := by
    rw [show m.deviceBlockPools i = (m.setMemory mem).deviceBlockPools i from rfl, setPool_eq_self]
    exact h.setMemory mem
  rw [Returns, finishTransfer]
  simp only [spec_bind, spec_modify, hmem]
  cases hhs : t.commitHashes with
  | none =>
    have hdone := hfree _ v hstart
    rw [show m.deviceBlockPools i = (m.setMemory mem).deviceBlockPools i from rfl,
      setPool_eq_self] at hdone
    exact hdone
  | some hs =>
    simp only [spec_bind]
    have hlen' := hlen hs hhs
    refine Spec.imp (commitHashes_spec (show i < (m.setMemory mem).numReplicas from hi) hin hhs
      (h.setMemory mem)) ?_
    rintro _ _ ⟨p, rfl, v', hv'⟩
    rw [if_neg (by omega), if_neg (by omega)]
    exact hfree p v' hv'

/-- **Polling** a replica: the transfers that are complete are finished. -/
theorem pollReplica_spec (h : m.Inv lost) (hi : i < m.numReplicas) (isComplete : ℕ → ℕ → Bool) :
    Returns (pollReplica isComplete i) m fun _ m' => m'.toManagerConfig = m.toManagerConfig ∧
      m'.Inv lost := by
  obtain ⟨v, hv⟩ := h.owns i hi
  rw [Returns, pollReplica]
  simp only [spec_bind, spec_get]
  split
  · exact ⟨rfl, h⟩
  rw [spec_bind]
  generalize hzs : (m.pendingTransfers i).zip
    ((range (m.pendingTransfers i).length).map (isComplete i)) = zs
  have hfst : zs.map Prod.fst = m.pendingTransfers i := by
    rw [← hzs]
    exact map_fst_zip (by simp)
  have hstart : (m.setTransfers i ([] ++ zs.map Prod.fst)).Owns i v (lost i) := by
    rw [nil_append, hfst, setTransfers, update_eq_self]
    exact hv
  have hloop := Spec.foldlM (I := fun done still m' => Inside i m m' ∧ ∀ todo, zs = done ++ todo →
        ∃ v', (m'.setTransfers i (still ++ todo.map Prod.fst)).Owns i v' (lost i))
    (g := pollTransfer i) (E := fun _ _ => False) zs [] (fun done z todo hsplit still m₁ hm₁ => by
      obtain ⟨hinside, howns⟩ := hm₁
      obtain ⟨v₁, hv₁⟩ := howns (z :: todo) hsplit
      have hrest : ∀ {todo'}, zs = done ++ [z] ++ todo' → todo' = todo := by
        intro todo' htodo'
        rw [hsplit, append_assoc] at htodo'
        simpa using htodo'.symm
      rw [pollTransfer]
      split
      · refine ⟨hinside, fun todo' htodo' => ⟨v₁, ?_⟩⟩
        rw [hrest htodo', append_assoc]
        exact hv₁
      · rw [spec_bind]
        refine Spec.imp (finishTransfer_spec (hinside.config ▸ hi) hv₁) ?_
        rintro _ m₂ ⟨hinside₂, howns₂⟩
        exact ⟨hinside.trans hinside₂, fun todo' htodo' => hrest htodo' ▸ howns₂⟩)
    ⟨Frame.refl i m, fun todo htodo => ⟨v, (show zs = todo from htodo) ▸ hstart⟩⟩
  refine Spec.imp hloop ?_
  rintro still m₁ ⟨hinside, howns⟩
  rw [spec_modify]
  have hend := howns [] (append_nil zs).symm
  rw [map_nil, append_nil] at hend
  exact ⟨hinside.config, h.of_inside (hinside.trans (.setTransfers i m₁ still)) (fun _ => hend)
    fun _ _ => rfl⟩

/-- A loop over the replicas. -/
theorem forM_replicas {g : ℕ → PyM (BlockManager H R P) PUnit} (h : m.Inv lost)
    (hg : ∀ m₁ i, m₁.Inv lost → i < m₁.numReplicas → Returns (g i) m₁ fun _ m' =>
      m'.toManagerConfig = m₁.toManagerConfig ∧ m'.Inv lost) :
    Returns ((List.range m.numReplicas).forM g) m fun _ m' => m'.Inv lost := by
  refine Spec.imp (Spec.forM (I := fun _ m' => m'.toManagerConfig = m.toManagerConfig ∧ m'.Inv lost)
    _ (fun done i todo hsplit m₁ hm₁ => ?_) ⟨rfl, h⟩) (fun _ m' hm' => hm'.2)
  have hi : i < m.numReplicas := mem_range.mp (hsplit ▸ by simp)
  refine Spec.imp (hg m₁ i hm₁.2 (hm₁.1 ▸ hi)) ?_
  exact fun _ m₂ hm₂ => ⟨hm₂.1.trans hm₁.1, hm₂.2⟩

theorem pollTransfers_spec (h : m.Inv lost) (isComplete : ℕ → ℕ → Bool) :
    Returns (pollTransfers isComplete) m fun _ m' => m'.Inv lost := by
  rw [Returns, pollTransfers, spec_get_bind]
  exact forM_replicas h fun m₁ i h₁ hi => pollReplica_spec h₁ hi isComplete

theorem resetPrefixCache_spec [ToString R] (h : m.Inv lost) :
    Returns (resetPrefixCache : PyM (BlockManager H R P) Unit) m fun _ m' => m'.Inv lost := by
  rw [Returns, resetPrefixCache, spec_get_bind]
  refine forM_replicas h fun m₁ i h₁ hi => ?_
  obtain ⟨v, hv⟩ := h₁.owns i hi
  rw [Returns, spec_onPool hi]
  refine Spec.imp hv.shows.resetPrefixCache (fun _ p hp => ⟨rfl, ?_⟩)
  exact h₁.of_inside (Frame.setPool i m₁ p) (fun _ => ⟨_, hv.setPool_reset hp⟩) fun _ _ => rfl

/-! ### Claiming, allocating and releasing -/

section Requests

variable [ToString R]

theorem claim_spec (h : m.Inv lost) (r : R) (i : ℕ) :
    Spec (claim r i) m (fun _ m' => m'.Inv lost) fun _ m' => m' = m := by
  rw [claim, spec_get_bind]
  cases hr : m.reqToReplica.lookup r with
  | some existing => rfl
  | none =>
    rw [spec_modify]
    generalize hm' : { m with reqToReplica := m.reqToReplica.insert r i } = m'
    have hlookup : ∀ {r' j}, m'.reqToReplica.lookup r' = some j →
        m.reqToReplica.lookup r' = some j ∨ r' = r := by
      intro r' j hr'
      by_cases hrr : r' = r
      · exact .inr hrr
      · rw [← hm'] at hr'
        exact .inl (by rwa [AList.lookup_insert_ne hrr] at hr')
    have hkeep : ∀ {r' j}, m.reqToReplica.lookup r' = some j →
        m'.reqToReplica.lookup r' = some j := by
      intro r' j hr'
      have hrr : r' ≠ r := fun heq => by
        rw [heq, hr] at hr'
        cases hr'
      rw [← hm']
      exact (AList.lookup_insert_ne hrr).trans hr'
    have hblocks : m'.reqToBlocks = m.reqToBlocks := hm' ▸ rfl
    -- the request has no blocks yet
    have hat : ∀ {j b r' k}, m'.At j b r' k → m.At j b r' k := by
      rintro j b r' k ⟨hr', hb⟩
      rw [hblocks] at hb
      rcases hlookup hr' with hr' | rfl
      · exact ⟨hr', hb⟩
      · rw [h.unclaimed r' hr] at hb
        cases hb
    have howned : ∀ j, m'.owned j = m.owned j := by
      intro j
      rw [owned, owned, hblocks]
      refine (Finset.sum_subset (fun r' hr' => ?_) fun r' hr' hnot => ?_).symm
      · exact mem_requestsOn.mpr (hkeep (mem_requestsOn.mp hr'))
      · rcases hlookup (mem_requestsOn.mp hr') with hr' | rfl
        · exact absurd (mem_requestsOn.mpr hr') hnot
        · rw [h.unclaimed r' hr]
          rfl
    refine ⟨fun j hj => ?_, fun r' hr' => ?_, fun r' => ?_, fun r' => ?_⟩
    · obtain ⟨v, hv⟩ := h.owns j (by rwa [← hm'] at hj)
      exact ⟨v, hv.restrict (hm' ▸ rfl) (hm' ▸ rfl) (hm' ▸ rfl) (hm' ▸ rfl)
        (fun b r' k hb => ⟨hat hb, hm' ▸ rfl⟩) (by rw [howned])⟩
    · rw [hblocks]
      refine h.unclaimed r' ?_
      cases hr'' : m.reqToReplica.lookup r' with
      | none => rfl
      | some j =>
        rw [hkeep hr''] at hr'
        cases hr'
    · have hc := h.committed r'
      rw [← hm']
      exact hc
    · have hh := h.hashes r'
      rw [← hm']
      exact hh

/-- **Allocating** new blocks for a request: either all of them, or none. -/
theorem allocateNewBlocks_spec (h : m.Inv lost) (ctx : TextContext R) (n k : ℕ) :
    Spec (allocateNewBlocks ctx n k) m (fun _ m' => m'.Inv lost) fun _ m' => m' = m := by
  rw [allocateNewBlocks]
  refine h.spec_pool (fun _ => rfl) fun i v hr hi hv => ?_
  simp only [spec_bind, spec_get]
  split
  · rfl
  split
  · rfl
  split_ifs with hfree
  · rfl
  rw [hv.shows.numFreeBlocks, not_lt, Nat.cast_le] at hfree
  refine Returns.mono (forM_pushBlock hi hr hv (range (m.numBlocksToAllocate ctx n k))
    (by simpa using hfree)) ?_
  rintro _ _ ⟨p, rfl, hp⟩
  refine h.of_request hr ((Frame.setPool i m p).trans (.setBlocks i _ _ _)) hp
    (fun _ _ => rfl) ?_ rfl
  rw [setBlocks_self, length_append]
  exact (h.committed ctx.requestId).trans (Nat.le_add_right _ _)

/-- The manager after a request was forgotten. -/
def forget (m : BlockManager H R P) (r : R) : BlockManager H R P :=
  { ((m.setBlocks r []).setHashes r []).setCommittedIdx r 0 with
    reqToReplica := m.reqToReplica.erase r }

/-- The blocks of a request that is forgotten are held by the call. -/
theorem Owns.forget {j : ℕ} (h : m.Owns j v held) (hr : m.reqToReplica.lookup r = some i) :
    (m.forget r).Owns j v (if j = i then ↑(m.reqToBlocks r) + held else held) := by
  have hne : ∀ {r' j}, (m.forget r).reqToReplica.lookup r' = some j →
      r' ≠ r ∧ m.reqToReplica.lookup r' = some j := by
    intro r' j hr'
    change (m.reqToReplica.erase r).lookup r' = some j at hr'
    by_cases hrr : r' = r
    · rw [hrr, AList.lookup_erase] at hr'
      cases hr'
    · exact ⟨hrr, by rwa [AList.lookup_erase_ne hrr] at hr'⟩
  have hblocks : ∀ {r'}, r' ≠ r → (m.forget r).reqToBlocks r' = m.reqToBlocks r' := fun hrr =>
    update_of_ne hrr ..
  have hhashes : ∀ {r'}, r' ≠ r → (m.forget r).reqToHashes r' = m.reqToHashes r' := fun hrr =>
    update_of_ne hrr ..
  have hat : ∀ {b r' k}, (m.forget r).At j b r' k → r' ≠ r ∧ m.At j b r' k := by
    rintro b r' k ⟨hr', hb⟩
    obtain ⟨hrr, hr'⟩ := hne hr'
    rw [hblocks hrr] at hb
    exact ⟨hrr, hr', hb⟩
  have hreq : (m.forget r).requestsOn j = (m.requestsOn j).erase r := by
    ext r'
    rw [Finset.mem_erase, mem_requestsOn, mem_requestsOn]
    refine ⟨hne, fun ⟨hrr, hr'⟩ => ?_⟩
    exact (AList.lookup_erase_ne hrr).trans hr'
  have hsum : (m.forget r).owned j = ∑ x ∈ (m.requestsOn j).erase r, (m.reqToBlocks x : Multiset ℕ) := by
    rw [owned, hreq]
    exact Finset.sum_congr rfl fun r' hr' => by rw [hblocks (Finset.ne_of_mem_erase hr')]
  refine h.restrict rfl rfl rfl rfl (fun b r' k hb => ⟨(hat hb).2, hhashes (hat hb).1⟩) ?_
  rw [hsum]
  by_cases hji : j = i
  · rw [if_pos hji, owned, ← Finset.add_sum_erase _ _ (mem_requestsOn.mpr (hji ▸ hr))]
    abel
  · have hnot : r ∉ m.requestsOn j := fun hmem => hji (by
      rw [mem_requestsOn, hr, Option.some_inj] at hmem
      exact hmem.symm)
    rw [if_neg hji, Finset.erase_eq_of_notMem hnot, owned]

/-- The invariant when a request was forgotten and its blocks were given back. -/
theorem Inv.forget (h : m.Inv lost) (hr : m.reqToReplica.lookup r = some i)
    {v : PoolView H} (hp : ((m.forget r).setPool i p).Owns i v (lost i)) :
    ((m.forget r).setPool i p).Inv lost where
  owns j hj := by
    by_cases hji : j = i
    · exact ⟨v, hji ▸ hp⟩
    · obtain ⟨w, hw⟩ := h.owns j hj
      have hforget := hw.forget hr
      rw [if_neg hji] at hforget
      exact ⟨w, (Frame.setPool (S := ∅) i (m.forget r) p).owns (by simp) hji hforget⟩
  unclaimed r' hr' := by
    change (m.reqToReplica.erase r).lookup r' = none at hr'
    change update m.reqToBlocks r [] r' = []
    by_cases hrr : r' = r
    · rw [hrr, update_self]
    · rw [update_of_ne hrr]
      rw [AList.lookup_erase_ne hrr] at hr'
      exact h.unclaimed r' hr'
  committed r' := by
    change update m.reqToCommittedIdx r 0 r' / m.blockSize ≤ (update m.reqToBlocks r [] r').length
    by_cases hrr : r' = r
    · simp [hrr]
    · rw [update_of_ne hrr, update_of_ne hrr]
      exact h.committed r'
  hashes r' := by
    change (update m.reqToHashes r [] r').Nodup
    by_cases hrr : r' = r
    · rw [hrr, update_self]
      exact nodup_nil
    · rw [update_of_ne hrr]
      exact h.hashes r'

/-- **Releasing** a request drops its references. -/
theorem release_spec (h : m.Inv lost) (r : R) :
    Spec (release r) m (fun _ m' => m'.Inv lost) fun _ m' => m' = m := by
  rw [release]
  simp only [spec_bind]
  cases hr : m.reqToReplica.lookup r with
  | none => exact (spec_replicaOf_none hr).mpr rfl
  | some i =>
    rw [spec_replicaOf hr]
    simp only [spec_get]
    by_cases hi : i < m.numReplicas
    · obtain ⟨v, hv⟩ := h.owns i hi
      rw [spec_onPool hi]
      generalize hbs : (if m.enablePrefixCaching = true then (m.reqToBlocks r).reverse
        else m.reqToBlocks r) = bs
      have hcoe : (m.reqToBlocks r : Multiset ℕ) = ↑bs := by
        rw [← hbs]
        split
        · exact Multiset.coe_eq_coe.mpr (reverse_perm _).symm
        · rfl
      have hforget := hv.forget hr
      rw [if_pos rfl, hcoe, ← setPool_eq_self (m.forget r) i] at hforget
      refine Returns.mono hforget.forM_free (fun _ p hp => ?_)
      rw [spec_modify]
      exact h.forget hr hp
    · exact (spec_onPool_of_le (not_lt.mp hi)).mpr rfl

end Requests

end BlockManager

/-! ### Calls with a request -/

namespace Call

variable {H R P : Type} [DecidableEq H] [DecidableEq R] {c : Call H R P}
  {lost : ℕ → Multiset ℕ} {E : PyError → Call H R P → Prop}

@[simp] theorem spec_onManager {α : Type} {op : PyM (BlockManager H R P) α}
    {Q : α → Call H R P → Prop} :
    Spec (onManager op) c Q E ↔ Spec op c.manager (fun a m => Q a { c with manager := m })
      fun e m => E e { c with manager := m } := by
  rw [onManager, spec_focus]

/-- The hashes that a request gets when they are computed. -/
def Hashes (c : Call H R P) (new : List H) : Prop :=
  (c.manager.hashConfig.computeBlockHashes c.ctx (c.manager.reqToHashes c.ctx.requestId)).1 = .ok new

/-- Computing the hashes only adds them to those known. -/
theorem computeHashesForRequest_spec (c : Call H R P) :
    Spec computeHashesForRequest c (fun _ c' => ∃ new, c.Hashes new ∧
      c' = ⟨c.manager.setHashes c.ctx.requestId
        (c.manager.reqToHashes c.ctx.requestId ++ new), c.ctx⟩) fun _ c' => c' = c := by
  have hsnd := c.manager.hashConfig.computeBlockHashes_snd c.ctx
    (c.manager.reqToHashes c.ctx.requestId)
  rw [computeHashesForRequest]
  simp only [spec_bind, spec_get, onTokens, hsnd, spec_modify]
  cases hres : (c.manager.hashConfig.computeBlockHashes c.ctx
    (c.manager.reqToHashes c.ctx.requestId)).1 with
  | error e => rfl
  | ok new => exact ⟨new, hres, rfl⟩

variable [ToString R]

/-- The hashes of a request stay different from each other when more are computed. -/
def Distinct (c : Call H R P) : Prop :=
  ∀ new, c.Hashes new → (c.manager.reqToHashes c.ctx.requestId ++ new).Nodup

/-- **A step** of a request. -/
theorem step_spec (h : c.manager.Inv lost) (hdistinct : c.Distinct) :
    Spec step c (fun _ c' => c'.manager.Inv lost) fun _ c' => c'.manager.Inv lost := by
  rw [step, spec_get_bind]
  split
  · exact h
  rw [spec_bind]
  refine Spec.mono (computeHashesForRequest_spec c) ?_ ?_
  · rintro _ _ ⟨new, hnew, rfl⟩
    rw [spec_bind, spec_get, spec_onManager]
    exact BlockManager.commitToPrefixCache_spec (h.setHashes (hdistinct new hnew)) c.ctx
  · rintro _ _ rfl
    exact h

/-- The window of the request reaches beyond the committed index. -/
def Open (c : Call H R P) : Prop :=
  c.ctx.tokens.start ≤ c.ctx.tokens.stop ∧
  c.manager.reqToCommittedIdx c.ctx.requestId ≤ c.ctx.tokens.stop ∧
  (c.manager.reqToCommittedIdx c.ctx.requestId : ℤ) < c.ctx.tokens.start + c.ctx.tokens.activeLength

theorem spec_onTokens {f : TokenBuffer → Except PyError TokenBuffer} {Q : Unit → Call H R P → Prop}
    (hok : ∀ b, f c.ctx.tokens = .ok b → Q () { c with ctx := { c.ctx with tokens := b } })
    (herr : ∀ e, f c.ctx.tokens = .error e → E e c) : Spec (onTokens f) c Q E := by
  rw [onTokens, spec_get_bind]
  cases hf : f c.ctx.tokens with
  | error e => exact herr e hf
  | ok b => exact hok b hf

/-- Moving the window to the committed index can only fail if the window ends before it. -/
theorem moveToCommitted_spec (c : Call H R P) :
    Spec moveToCommitted c (fun _ c' => c'.manager = c.manager ∧
      c'.ctx.requestId = c.ctx.requestId) fun _ c' => c' = c ∧ ¬ c.Open := by
  rw [moveToCommitted]
  simp only [spec_bind, spec_get]
  split
  · rename_i hpos
    refine spec_onTokens (fun b _ => ⟨rfl, rfl⟩) fun e he => ⟨rfl, fun hopen => ?_⟩
    obtain ⟨hwindow, hstop, -⟩ := hopen
    rw [TokenBuffer.processedLength] at hpos he
    rw [TokenBuffer.rewindProcessing, if_neg (by omega), TokenBuffer.bumpStart] at he
    rw [if_neg (by omega), if_neg (by omega)] at he
    cases he
  · split_ifs with hneg
    · refine spec_onTokens (fun b _ => ⟨rfl, rfl⟩) fun e he => ⟨rfl, fun hopen => ?_⟩
      obtain ⟨hwindow, hstop, hactive⟩ := hopen
      rw [TokenBuffer.processedLength] at hneg he
      rw [TokenBuffer.skipProcessing, if_neg (by omega), if_neg (by omega),
        TokenBuffer.bumpStart] at he
      rw [if_neg (by omega), if_neg (by omega)] at he
      cases he
    · exact ⟨rfl, rfl⟩

open BlockManager in
/-- Giving back the uncommitted blocks of a request. -/
theorem releaseUncommittedBlocks_spec {i : ℕ} {v : PoolView H} {held : Multiset ℕ}
    (hr : c.manager.reqToReplica.lookup c.ctx.requestId = some i) (hi : i < c.manager.numReplicas)
    (howns : c.manager.Owns i v held)
    (hcommitted : c.manager.numCommittedBlocks c.ctx.requestId
      ≤ (c.manager.reqToBlocks c.ctx.requestId).length) :
    let P' := fun c' : Call H R P => c'.ctx.requestId = c.ctx.requestId ∧
      ∃ p, c'.manager = (c.manager.setBlocks c.ctx.requestId
        ((c.manager.reqToBlocks c.ctx.requestId).take
          (c.manager.numCommittedBlocks c.ctx.requestId))).setPool i p ∧
      c'.manager.Owns i (((c.manager.reqToBlocks c.ctx.requestId).drop
        (c.manager.numCommittedBlocks c.ctx.requestId)).reverse.foldl PoolView.drop v) held
    Spec releaseUncommittedBlocks c (fun _ c' => P' c') fun _ c' => P' c' ∧ ¬ c.Open := by
  intro P'
  rw [releaseUncommittedBlocks]
  simp only [spec_bind, spec_get, spec_onManager, spec_replicaOf hr, spec_getPool hi]
  rw [if_neg (not_lt.mpr hcommitted)]
  simp only [spec_bind, spec_onManager]
  refine Returns.mono (forM_popBlock hi hr howns (range _)
    (by rw [length_range, Nat.add_sub_cancel' hcommitted])) ?_
  rintro _ _ ⟨p, rfl, hp⟩
  refine Spec.mono (moveToCommitted_spec _) ?_ ?_
  · rintro _ c' ⟨hmanager, hid⟩
    exact ⟨hid, p, hmanager, hmanager ▸ hp⟩
  · rintro _ _ ⟨rfl, hopen⟩
    exact ⟨⟨rfl, p, rfl, hp⟩, hopen⟩

end Call

namespace BlockManager

variable {H R P : Type} [DecidableEq H] [DecidableEq R] {m m' : BlockManager H R P} {i b : ℕ}
  {r : R} {v v' : PoolView H} {held : Multiset ℕ} {lost : ℕ → Multiset ℕ} {hs : List H}
  {bs : List ℕ}

/-- What is known of blocks found stays true when lists get shorter. -/
theorem Found.mono (h : Found m i v hs bs) (hexp : ∀ b e, m'.Expects i b e → m.Expects i b e)
    (howned : ∀ b, b ∈ m'.owned i → b ∈ m.owned i) (hhash : v'.hash = v.hash) :
    Found m' i v' hs bs where
  length := h.length
  fits k b hk := by
    obtain ⟨hexpected, hb, hfresh⟩ := h.fits k b hk
    refine ⟨fun e he => hexpected e (hexp b e he), hhash ▸ hb, fun hnone => ?_⟩
    obtain ⟨hnot, hunique⟩ := hfresh (hhash ▸ hnone)
    exact ⟨fun hmem => hnot (howned b hmem), hunique⟩

variable (hr : m.reqToReplica.lookup r = some i)

include hr

theorem at_take (n : ℕ) {r' : R} {k : ℕ}
    (h : (m.setBlocks r ((m.reqToBlocks r).take n)).At i b r' k) : m.At i b r' k := by
  rcases (Owns.at_setBlocks hr _).mp h with ⟨rfl, hk⟩ | ⟨-, hat⟩
  · rw [getElem?_take] at hk
    split at hk
    · exact ⟨hr, hk⟩
    · cases hk
  · exact hat

theorem expects_take (n : ℕ) {e : Option H}
    (h : (m.setBlocks r ((m.reqToBlocks r).take n)).Expects i b e) : m.Expects i b e := by
  rcases h with ⟨r', k, hat, rfl⟩ | hload
  · exact (at_take hr n hat).expects
  · exact .inr hload

theorem mem_owned_take (n : ℕ) (h : b ∈ (m.setBlocks r ((m.reqToBlocks r).take n)).owned i) :
    b ∈ m.owned i := by
  obtain ⟨r', k, hat⟩ := mem_owned.mp h
  exact (at_take hr n hat).mem_owned

end BlockManager

namespace Call

open BlockManager

variable {H R P : Type} [DecidableEq H] [DecidableEq R] [ToString R] {c : Call H R P}
  {lost : ℕ → Multiset ℕ} {i : ℕ} {bs : List ℕ}

theorem numCommittedBlocks_add (m : BlockManager H R P) (r : R) (n : ℕ) :
    (m.reqToCommittedIdx r + n * m.blockSize) / m.blockSize ≤ m.numCommittedBlocks r + n := by
  rcases Nat.eq_zero_or_pos m.blockSize with hzero | hpos
  · rw [hzero, Nat.div_zero]
    exact Nat.zero_le _
  · rw [Nat.add_mul_div_right _ _ hpos, numCommittedBlocks]

/-- **Taking over** the blocks that were found: their references become those of the request.
Only a window that ends too early makes the call fail before. -/
theorem takeOver_spec {v : PoolView H} (h : c.manager.Inv (update lost i (↑bs + lost i)))
    (hr : c.manager.reqToReplica.lookup c.ctx.requestId = some i) (hi : i < c.manager.numReplicas)
    (howns : c.manager.Owns i v (↑bs + lost i))
    (hfound : Found c.manager i v ((c.manager.reqToHashes c.ctx.requestId).drop
      (c.manager.numCommittedBlocks c.ctx.requestId)) bs) :
    Spec (takeOver bs) c (fun _ c' => c'.manager.Inv lost) fun _ c' =>
      c'.manager.Inv lost ∨ (∃ lost', c'.manager.Inv lost') ∧ ¬ c.Open := by
  generalize hr' : c.ctx.requestId = r at *
  generalize hm : c.manager = m at *
  generalize hn : m.numCommittedBlocks r = n at *
  have hnle : n ≤ (m.reqToBlocks r).length := hn ▸ h.committed r
  -- the state when the uncommitted blocks were given back
  have hshort : ∀ m₁ : BlockManager H R P, ∀ p v₁,
      m₁ = (m.setBlocks r ((m.reqToBlocks r).take n)).setPool i p → v₁.hash = v.hash →
      m₁.Owns i v₁ (↑bs + lost i) → ((m₁.setBlocks r (m₁.reqToBlocks r ++ bs)).setCommittedIdx r
        (m₁.reqToCommittedIdx r + bs.length * m₁.blockSize)).Inv lost ∧
      m₁.Inv (update lost i (↑bs + lost i)) := by
    rintro m₁ p v₁ rfl hhash hv₁
    have hframe : Frame i {r} m ((m.setBlocks r ((m.reqToBlocks r).take n)).setPool i p) :=
      (Frame.setBlocks i r m _).trans (.setPool i _ p)
    generalize hm₁ : (m.setBlocks r ((m.reqToBlocks r).take n)).setPool i p = m₁ at *
    have hblocks : m₁.reqToBlocks r = (m.reqToBlocks r).take n := by
      rw [← hm₁]
      exact setBlocks_self ..
    have hlen : (m₁.reqToBlocks r).length = n := by rw [hblocks, length_take, min_eq_left hnle]
    have hhashes : m₁.reqToHashes r = m.reqToHashes r := by rw [← hm₁]; rfl
    have hcommitted : m₁.numCommittedBlocks r = n := by rw [← hn, ← hm₁]; rfl
    have hlookup : m₁.reqToReplica.lookup r = some i := hframe.replicas ▸ hr
    have hfound₁ : Found m₁ i v₁ ((m.reqToHashes r).drop n) bs := by
      refine hfound.mono (fun b e he => ?_) (fun b hb => ?_) hhash
      · rw [← hm₁] at he
        exact expects_take hr n he
      · rw [← hm₁] at hb
        exact mem_owned_take hr n hb
    constructor
    · refine h.of_request hr (hframe.trans ((Frame.setBlocks i r m₁ _).trans
        (.setCommittedIdx i r _ _))) ((hv₁.append hlookup fun k b hk => ?_).setCommittedIdx r _)
        (fun j hj => (update_of_ne hj ..).symm) ?_ hhashes
      · rw [hhashes, hlen, ← getElem?_drop]
        exact hfound₁.fits k b hk
      · rw [numCommittedBlocks, setCommittedIdx_self]
        change _ ≤ ((m₁.setBlocks r (m₁.reqToBlocks r ++ bs)).reqToBlocks r).length
        rw [setBlocks_self, length_append, hlen, ← hcommitted]
        exact numCommittedBlocks_add m₁ r bs.length
    · refine h.of_request (v := v₁) hr hframe ?_ (fun _ _ => rfl) (by rw [hcommitted, hlen]) hhashes
      rwa [update_self]
  rw [takeOver]
  simp only [spec_bind, spec_get]
  subst hm hr' hn
  refine Spec.mono (releaseUncommittedBlocks_spec hr hi howns hnle) ?_ ?_
  · rintro _ c₁ ⟨hid, p, hm₁, hv₁⟩
    obtain ⟨hend, -⟩ := hshort c₁.manager p _ hm₁ (PoolView.foldl_drop_hash ..) hv₁
    simp only [spec_onManager, spec_modify]
    refine spec_onTokens (fun b _ => ?_) fun e _ => .inl hend
    simp only
    split
    · exact .inl hend
    · exact hend
  · rintro _ c₁ ⟨⟨hid, p, hm₁, hv₁⟩, hopen⟩
    obtain ⟨-, hend⟩ := hshort c₁.manager p _ hm₁ (PoolView.foldl_drop_hash ..) hv₁
    exact .inr ⟨⟨_, hend⟩, hopen⟩

/-- A request on a replica that does not exist finds nothing. -/
theorem getFullBlocksFromPrefixCache_of_le {m : BlockManager H R P} {r : R}
    (hr : m.reqToReplica.lookup r = some i) (hi : m.numReplicas ≤ i) (reply : LoadReply P) :
    Spec (getFullBlocksFromPrefixCache r reply) m (fun res m' => m' = m ∧ res.1 = [])
      fun _ m' => m' = m := by
  rw [getFullBlocksFromPrefixCache, spec_get_bind]
  split
  · rfl
  simp only [spec_bind, spec_get, spec_replicaOf hr, getFullBlocksFromDevicePrefixCache]
  split
  · simp only [spec_pure]
    split
    · exact ⟨rfl, rfl⟩
    · rw [spec_bind, getFullBlocksFromHostPrefixCache, spec_bind, spec_getPool_of_le hi]
  · rw [spec_bind, spec_getPool_of_le hi]

/-- The blocks of the replica of a request that have hashes of it, behind the committed ones, have
the first of them. -/
def ResidentFirst (c : Call H R P) : Prop :=
  ∀ new i, c.Hashes new → c.manager.reqToReplica.lookup c.ctx.requestId = some i →
    ∀ (j k : ℕ) (x y : H), k ≤ j →
      ((c.manager.reqToHashes c.ctx.requestId ++ new).drop
        (c.manager.numCommittedBlocks c.ctx.requestId))[j]? = some x →
      ((c.manager.reqToHashes c.ctx.requestId ++ new).drop
        (c.manager.numCommittedBlocks c.ctx.requestId))[k]? = some y →
      x ∈ (c.manager.deviceBlockPools i).prefixCache →
      y ∈ (c.manager.deviceBlockPools i).prefixCache

/-- When reusing blocks loses no reference: the window reaches beyond the committed index, and a
load that is complete at once does not bring what is there already. -/
def ReuseSafe (c : Call H R P) (reply : LoadReply P) : Prop :=
  c.Open ∧ (reply.isComplete = true → c.manager.onlyUseKvConnectorLastLevelCache = false →
    c.ResidentFirst)

/-- **Reusing blocks** may only lose references where it is not safe. -/
theorem reuseBlocksFromPrefixCache_spec (h : c.manager.Inv lost) (hdistinct : c.Distinct)
    (reply : LoadReply P) :
    Spec (reuseBlocksFromPrefixCache reply) c (fun _ c' => c'.manager.Inv lost) fun _ c' =>
      ∃ lost', c'.manager.Inv lost' ∧ (c.ReuseSafe reply → lost' = lost) := by
  rw [reuseBlocksFromPrefixCache]
  simp only [spec_bind, spec_get, spec_onManager]
  cases hr : c.manager.reqToReplica.lookup c.ctx.requestId with
  | none => exact (spec_replicaOf_none hr).mpr ⟨lost, h, fun _ => rfl⟩
  | some i =>
    rw [spec_replicaOf hr]
    split_ifs with hcond
    · exact h
    simp only [spec_bind, spec_get]
    refine Spec.mono (computeHashesForRequest_spec c) ?_ ?_
    · rintro _ _ ⟨new, hnew, rfl⟩
      have h₁ := h.setHashes (hdistinct new hnew)
      rw [spec_onManager]
      change Spec _ (c.manager.setHashes c.ctx.requestId
        (c.manager.reqToHashes c.ctx.requestId ++ new)) _ _
      generalize hm : c.manager.setHashes c.ctx.requestId
        (c.manager.reqToHashes c.ctx.requestId ++ new) = m at *
      have hconfig : m.toManagerConfig = c.manager.toManagerConfig := by rw [← hm]; rfl
      have hreplicas : m.reqToReplica = c.manager.reqToReplica := by rw [← hm]; rfl
      have hcommitted : m.reqToCommittedIdx = c.manager.reqToCommittedIdx := by rw [← hm]; rfl
      have hr₁ : m.reqToReplica.lookup c.ctx.requestId = some i := hreplicas ▸ hr
      -- the end of the call only touches the request
      have hlast : ∀ (skip : ℤ) (done : Bool) (c' : Call H R P), c'.manager.Inv lost →
          Spec (if c.ctx.tokens.processedLength = 0 then do
              setCachedPrefixLength skip
              pure (skip, done)
            else pure (skip, done)) c' (fun _ c' => c'.manager.Inv lost) fun _ c' =>
            ∃ lost', c'.manager.Inv lost' ∧ (c.ReuseSafe reply → lost' = lost) := by
        intro skip done c' hc'
        split
        · exact hc'
        · exact hc'
      by_cases hi : i < m.numReplicas
      · obtain ⟨v, hv⟩ := h₁.owns i hi
        have hcaching : m.enablePrefixCaching = true := by
          rw [hconfig]
          rw [not_or] at hcond
          simpa using hcond.1
        refine Spec.mono (getFullBlocksFromPrefixCache_spec hcaching hr₁ hi hv (h₁.hashes _) reply)
          ?_ ?_
        · rintro ⟨bs, done⟩ m₂ ⟨hinside, v₂, hv₂, hfound⟩
          have h₂ : m₂.Inv (update lost i (↑bs + lost i)) := by
            refine h₁.of_inside hinside (fun _ => ⟨v₂, ?_⟩) fun j hj => update_of_ne hj ..
            rw [update_self]
            exact hv₂
          split
          · rw [spec_bind]
            have hn : m₂.numCommittedBlocks c.ctx.requestId
                = m.numCommittedBlocks c.ctx.requestId := by
              rw [numCommittedBlocks, numCommittedBlocks, blockSize, blockSize,
                hinside.committed _ id, hinside.config]
            refine Spec.mono (takeOver_spec (c := ⟨m₂, c.ctx⟩) h₂ (hinside.replicas ▸ hr₁)
              (hinside.config ▸ hi) hv₂ ?_) (fun skip c' hc' => hlast skip done c' hc') ?_
            · change Found m₂ i v₂ ((m₂.reqToHashes c.ctx.requestId).drop
                (m₂.numCommittedBlocks c.ctx.requestId)) bs
              rw [hn, hinside.hashes _ id]
              exact hfound
            rintro _ c' (hc' | ⟨⟨lost', hc'⟩, hopen⟩)
            · exact ⟨lost, hc', fun _ => rfl⟩
            refine ⟨lost', hc', fun hsafe => absurd ?_ hopen⟩
            rw [Open]
            change _ ∧ m₂.reqToCommittedIdx c.ctx.requestId ≤ _ ∧
              (m₂.reqToCommittedIdx c.ctx.requestId : ℤ) < _
            rw [hinside.committed _ id, hcommitted]
            exact hsafe.1
          · rename_i hnil
            have hbs : bs = [] := length_eq_zero_iff.mp (Nat.eq_zero_of_not_pos hnil)
            rw [spec_bind, spec_pure]
            refine hlast 0 done ⟨m₂, c.ctx⟩ ?_
            rw [hbs, Multiset.coe_nil, zero_add, update_eq_self] at h₂
            exact h₂
        · rintro _ m₂ ⟨hinside, v₂, leaked, hv₂, honly, hcomplete, hclosed⟩
          refine ⟨update lost i (leaked + lost i), ?_, fun hsafe => absurd ?_ hclosed⟩
          · refine h₁.of_inside hinside (fun _ => ⟨v₂, ?_⟩) fun j hj => update_of_ne hj ..
            rw [update_self]
            exact hv₂
          rw [hconfig] at honly
          intro j k x y hkj hx hy hcached
          have hhashes : m.reqToHashes c.ctx.requestId
              = c.manager.reqToHashes c.ctx.requestId ++ new := by
            rw [← hm]
            exact update_self ..
          have hn : m.numCommittedBlocks c.ctx.requestId
              = c.manager.numCommittedBlocks c.ctx.requestId := by
            rw [← hm]
            rfl
          rw [hhashes, hn] at hx hy
          have hpool : m.deviceBlockPools = c.manager.deviceBlockPools := by rw [← hm]; rfl
          rw [← hv.shows.cached_iff, hpool] at hcached ⊢
          exact hsafe.2 hcomplete honly new i hnew hr j k x y hkj hx hy hcached
      · refine Spec.mono (getFullBlocksFromPrefixCache_of_le hr₁ (not_lt.mp hi) reply) ?_ ?_
        · rintro ⟨bs, done⟩ _ ⟨rfl, hbs⟩
          have hbs' : bs = [] := hbs
          rw [hbs', if_neg (by simp), spec_bind, spec_pure]
          exact hlast 0 done _ h₁
        · rintro _ _ rfl
          exact ⟨lost, h₁, fun _ => rfl⟩
    · rintro _ _ rfl
      exact ⟨lost, h, fun _ => rfl⟩

end Call

/-! ### Runs -/

namespace BlockManager

variable {H R P : Type} [DecidableEq H] [DecidableEq R] [ToString R] {m : BlockManager H R P}
  {lost : ℕ → Multiset ℕ}

/-- The operations of a manager, each with the request it is called with.  What the connector
answers to a load, which sequences it offloads at once and which transfers it has completed when
it is polled is arbitrary. -/
inductive Op (R P : Type) where
  | claim (ctx : TextContext R) (replicaIdx : ℕ)
  | reuse (ctx : TextContext R) (reply : LoadReply P)
  | allocate (ctx : TextContext R) (numDraftTokens numDraftTokensPerStep : ℕ)
  | step (ctx : TextContext R)
  | offload (replicaIdx : ℕ) (isComplete : ℕ → Bool)
  | poll (isComplete : ℕ → ℕ → Bool)
  | release (ctx : TextContext R)
  | reset

/-- The manager after an operation, whether it returned or raised. -/
def Op.run (m : BlockManager H R P) : Op R P → BlockManager H R P
  | .claim ctx replicaIdx => finalState (BlockManager.claim ctx.requestId replicaIdx) m
  | .reuse ctx reply => (finalState (Call.reuseBlocksFromPrefixCache reply) ⟨m, ctx⟩).manager
  | .allocate ctx numDraftTokens numDraftTokensPerStep =>
    finalState (allocateNewBlocks ctx numDraftTokens numDraftTokensPerStep) m
  | .step ctx => (finalState Call.step ⟨m, ctx⟩).manager
  | .offload replicaIdx isComplete => finalState (BlockManager.offload replicaIdx isComplete) m
  | .poll isComplete => finalState (pollTransfers isComplete) m
  | .release ctx => finalState (BlockManager.release ctx.requestId) m
  | .reset => finalState resetPrefixCache m

/-- The hashes of a request that is hashed stay different from each other. -/
def Op.Distinct (m : BlockManager H R P) : Op R P → Prop
  | .reuse ctx _ => (⟨m, ctx⟩ : Call H R P).Distinct
  | .step ctx => (⟨m, ctx⟩ : Call H R P).Distinct
  | _ => True

/-- An operation that loses no reference. -/
def Op.Safe (m : BlockManager H R P) (op : Op R P) : Prop :=
  op.Distinct m ∧ match op with
    | .reuse ctx reply => (⟨m, ctx⟩ : Call H R P).ReuseSafe reply
    | _ => True

/-- **Every operation keeps the invariant**; one that is safe loses no reference. -/
theorem Inv.run (h : m.Inv lost) (op : Op R P) (hdistinct : op.Distinct m) :
    ∃ lost', (op.run m).Inv lost' ∧ (op.Safe m → lost' = lost) := by
  cases op with
  | claim ctx i =>
    exact ⟨lost, ((claim_spec h ctx.requestId i).mono (fun _ _ hm => hm)
      fun _ _ hm => hm ▸ h).finalState, fun _ => rfl⟩
  | reuse ctx reply =>
    have hspec := Call.reuseBlocksFromPrefixCache_spec (c := ⟨m, ctx⟩) h hdistinct reply
    refine Spec.finalState (P := fun c : Call H R P => ∃ lost', c.manager.Inv lost' ∧
      (Op.Safe m (.reuse ctx reply) → lost' = lost))
      (hspec.mono (fun _ c hc => ⟨lost, hc, fun _ => rfl⟩) ?_)
    rintro _ c ⟨lost', hc, hsafe⟩
    exact ⟨lost', hc, fun h => hsafe h.2⟩
  | allocate ctx n k =>
    exact ⟨lost, ((allocateNewBlocks_spec h ctx n k).mono (fun _ _ hm => hm)
      fun _ _ hm => hm ▸ h).finalState, fun _ => rfl⟩
  | step ctx =>
    have hspec := Call.step_spec (c := ⟨m, ctx⟩) h hdistinct
    exact ⟨lost, Spec.finalState (P := fun c : Call H R P => c.manager.Inv lost) hspec, fun _ => rfl⟩
  | offload i isComplete =>
    exact ⟨lost, (offload_spec h i isComplete).finalState, fun _ => rfl⟩
  | poll isComplete =>
    exact ⟨lost, (Returns.spec (pollTransfers_spec h isComplete)).finalState, fun _ => rfl⟩
  | release ctx =>
    exact ⟨lost, ((release_spec h ctx.requestId).mono (fun _ _ hm => hm)
      fun _ _ hm => hm ▸ h).finalState, fun _ => rfl⟩
  | reset =>
    exact ⟨lost, (Returns.spec (resetPrefixCache_spec h)).finalState, fun _ => rfl⟩

/-- The states that a manager comes to by operations that are safe. -/
inductive Reachable : BlockManager H R P → Prop
  | init (config : ManagerConfig H) (kvMemory : ℕ → ℕ → P) : Reachable (init config kvMemory)
  | step {m : BlockManager H R P} (h : Reachable m) (op : Op R P) (hsafe : op.Safe m) :
      Reachable (op.run m)

theorem Reachable.inv (h : Reachable m) : m.Inv fun _ => 0 := by
  induction h with
  | init config kvMemory => exact init_inv config kvMemory
  | step h op hsafe ih =>
    obtain ⟨lost', hrun, hlost⟩ := ih.run op hsafe.1
    exact hlost hsafe ▸ hrun

/-- How often a block of a replica stands in the block lists of its requests. -/
def occurrences (m : BlockManager H R P) (i b : ℕ) : ℕ :=
  ∑ r ∈ m.requestsOn i, (m.reqToBlocks r).count b

/-- How many pending transfers of a replica contain a block. -/
def numTransfers (m : BlockManager H R P) (i b : ℕ) : ℕ :=
  (m.pendingTransfers i).countP (b ∈ ·.blocks)

theorem count_owned (m : BlockManager H R P) (i b : ℕ) :
    (m.owned i).count b = m.occurrences i b := by
  rw [owned, Multiset.count_sum', occurrences]
  simp

theorem count_pinned {i : ℕ} (h : ∀ t ∈ m.pendingTransfers i, t.blocks.Nodup) (b : ℕ) :
    (m.pinned i).count b = m.numTransfers i b := by
  rw [pinned, numTransfers]
  generalize m.pendingTransfers i = ts at h
  induction ts with
  | nil => rfl
  | cons t ts ih =>
    have hrest := ih fun t' ht' => h t' (mem_cons_of_mem _ ht')
    have hnodup := h t mem_cons_self
    rw [map_cons, sum_cons, Multiset.count_add, hrest, countP_cons,
      Multiset.coe_count, Nodup.count hnodup, add_comm]
    simp

/-- The bookkeeping of the blocks of a replica. -/
structure Counted (m : BlockManager H R P) (i : ℕ) : Prop where
  /-- A block has a reference for every place it has in a block list or a pending transfer. -/
  refCnt : ∀ b < m.totalNumBlocks,
    (m.deviceBlockPools i).refCnt b = m.occurrences i b + m.numTransfers i b
  /-- A block is in the free queue once, or not at all when it is referenced. -/
  free : ∃ free, (m.deviceBlockPools i).freeBlockQueue.Holds free ∧ ∀ b < m.totalNumBlocks,
    free.count b = if (m.deviceBlockPools i).refCnt b = 0 then 1 else 0
  /-- The prefix cache has exactly the blocks that have a hash. -/
  lookup : ∀ h b, (m.deviceBlockPools i).prefixCache.lookup h = some b ↔
    (m.deviceBlockPools i).blockHash b = some h
  /-- A block that is handed out has no reference. -/
  alloc : ∀ b m', allocateDeviceBlock i m = .ok b m' →
    b < m.totalNumBlocks ∧ (m.deviceBlockPools i).refCnt b = 0
  /-- Every block of the pool is free or referenced. -/
  total : (m.deviceBlockPools i).numFreeBlocks +
    ((Finset.range m.totalNumBlocks).filter fun b => (m.deviceBlockPools i).refCnt b ≠ 0).card =
      m.totalNumBlocks

variable {b : ℕ}

namespace Owns

variable {i : ℕ} {v : PoolView H} (h : m.Owns i v 0)

include h

theorem mem_free_iff : b ∈ v.free ↔ b < m.totalNumBlocks ∧ (m.deviceBlockPools i).refCnt b = 0 := by
  rw [h.shows.wf.mem_free, h.numBlocks]
  exact and_congr_right fun hb => (h.shows.refCnt_eq_zero (h.numBlocks.symm ▸ hb)).symm

theorem mem_free_of_alloc (hi : i < m.numReplicas) {m' : BlockManager H R P}
    (hrun : allocateDeviceBlock i m = .ok b m') : b ∈ v.free := by
  match hfree : v.free with
  | [] =>
    -- the queue is empty, and the allocation raises
    have hholds := h.shows.holds
    rw [hfree] at hholds
    have hraises : Raises (allocateDeviceBlock i) m fun _ _ => True := by
      rw [Raises, allocateDeviceBlock]
      simp only [spec_bind, spec_onPool hi, BlockPool.allocBlock, BlockPool.onQueue, spec_focus]
      exact hholds.popleft_nil.mono fun _ _ _ => trivial
    obtain ⟨e, s', herr, -⟩ := raises_iff.mp hraises
    simp [hrun] at herr
  | b' :: rest =>
    obtain ⟨_, _, hok, rfl, -⟩ := returns_iff.mp (allocateDeviceBlock_spec h hi hfree)
    rw [hrun, EStateM.Result.ok.injEq] at hok
    exact hok.1 ▸ mem_cons_self

theorem counted_replica (hi : i < m.numReplicas) : m.Counted i where
  refCnt b hb := by
    rw [h.shows.refCnt b (h.numBlocks.symm ▸ hb), h.refs, add_zero, Multiset.count_add, count_owned,
      count_pinned fun t ht => (h.transfers t ht).1]
    exact Nat.cast_add ..
  free := by
    refine ⟨v.free, h.shows.holds, fun b hb => ?_⟩
    rw [Nodup.count h.shows.wf.nodup]
    simp only [h.mem_free_iff, hb, true_and]
  lookup x b := by rw [h.shows.lookup, h.shows.hash]
  alloc b m' hrun := h.mem_free_iff.mp (h.mem_free_of_alloc hi hrun)
  total := by
    -- the free blocks are those of the pool without the referenced ones
    have hfree : v.free.toFinset = (Finset.range m.totalNumBlocks).filter
        fun b => (m.deviceBlockPools i).refCnt b = 0 := by
      ext b
      rw [mem_toFinset, h.mem_free_iff, Finset.mem_filter, Finset.mem_range]
    have hcard := Finset.card_filter_add_card_filter_not (s := Finset.range m.totalNumBlocks)
      fun b => (m.deviceBlockPools i).refCnt b = 0
    rw [h.shows.numFreeBlocks, ← toFinset_card_of_nodup h.shows.wf.nodup, hfree,
      ← Nat.cast_add, hcard, Finset.card_range]

end Owns

/-- **The references of every block are counted**, in every replica of every state that a manager
comes to. -/
theorem Reachable.counted (h : Reachable m) : ∀ i < m.numReplicas, m.Counted i := by
  intro i hi
  obtain ⟨v, howns⟩ := h.inv.owns i hi
  exact howns.counted_replica hi

/-- A manager of one replica of three blocks of one token each. -/
def threeBlocks : ManagerConfig (ℕ × ℤ) :=
  ⟨3, HashConfig.sumConfig .ahash64, 1, true, false, false, false⟩

/-- A request for three tokens, with the window of those being processed. -/
def threeTokens (requestId currentPosition endPosition : ℕ) : TextContext ℕ :=
  ⟨requestId, ⟨[1, 2, 3], currentPosition, endPosition, 0, false⟩, 0, none, none, 0, 0, none⟩

/-- The first operations of a request. -/
def firstOps : List (Op ℕ Unit) :=
  [.claim (threeTokens 0 0 1) 0, .allocate (threeTokens 0 0 1) 0 0]

theorem counted_first : Counted (firstOps.foldl Op.run (init threeBlocks fun _ _ => ())) 0 := by
  refine Reachable.counted ?_ 0 (by decide)
  exact ((Reachable.init threeBlocks fun _ _ => ()).step (.claim (threeTokens 0 0 1) 0)
    ⟨trivial, trivial⟩).step (.allocate (threeTokens 0 0 1) 0 0) ⟨trivial, trivial⟩

/-- A request leaves two pages with the connector, and the second one is still being written when
the prefix cache is reset: its block keeps the hash, that of the first page does not. -/
def beforeLoad : List (Op ℕ Unit) :=
  [.claim (threeTokens 0 0 1) 0, .allocate (threeTokens 0 0 1) 0 0, .step (threeTokens 0 1 3),
    .allocate (threeTokens 0 1 2) 0 0, .step (threeTokens 0 2 3), .offload 0 fun k => k = 0,
    .release (threeTokens 0 2 3), .reset, .claim (threeTokens 1 0 3) 0]

/-- Another request then loads both pages, and its two new blocks stay referenced by nobody. -/
theorem reuse_loses_blocks :
    let m := beforeLoad.foldl Op.run (init threeBlocks fun _ _ => ())
    let m' := Op.run m (.reuse (threeTokens 1 0 3) ⟨[(), ()], true⟩)
    (∀ b < 3, (m.deviceBlockPools 0).refCnt b = m.occurrences 0 b + m.numTransfers 0 b) ∧
      m'.occurrences 0 0 = 0 ∧ m'.numTransfers 0 0 = 0 ∧ (m'.deviceBlockPools 0).refCnt 0 = 1 ∧
        ¬ m'.Counted 0 := by
  refine ⟨by decide +kernel, by decide +kernel, by decide +kernel, by decide +kernel, ?_⟩
  exact fun hcounted => absurd (hcounted.refCnt 0 (by decide +kernel)) (by decide +kernel)

end BlockManager
