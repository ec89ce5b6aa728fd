/-
The blocks of a device (`paged_kv_cache/block_pool.py`).

Blocks are counted references to; a block that nobody refers to is in the free queue, and may
still be found by its hash until it is handed out again.

* `BlockPool` — the pool, with `allocBlock`, `freeBlock`, `touch` and the prefix cache;
* `PoolView` — the references, the free blocks and the hashes that a pool stands for;
* `BlockPool.Shows` — a pool and its view, and what the operations do to both.
-/
import MojoMac.FreeQueue

open Function StateSpec List

/-- The pool; the fields of the block objects are kept in it, by block id. -/
structure BlockPool (H : Type) where
  totalNumBlocks : ℕ
  refCnt : ℕ → ℤ
  blockHash : ℕ → Option H
  freeBlockQueue : FreeKVCacheBlockQueue ℕ
  prefixCache : AList fun _ : H => ℕ

namespace BlockPool

variable {H : Type} [DecidableEq H] (p : BlockPool H)

/-- The constructor; the block behind the last one is the null block, its count is pinned. -/
def init (totalNumBlocks : ℕ) : BlockPool H where
  totalNumBlocks := totalNumBlocks
  refCnt := fun bid => if bid = totalNumBlocks then 42 else 0
  blockHash := fun _ => none
  freeBlockQueue := .init (List.range totalNumBlocks)
  prefixCache := ∅

variable (block : ℕ)

def isNull : Bool := block = p.totalNumBlocks

def numFreeBlocks : ℤ := p.freeBlockQueue.numFreeBlocks

/-- An operation on the free queue. -/
def onQueue {α : Type} (m : PyM (FreeKVCacheBlockQueue ℕ) α) : PyM (BlockPool H) α :=
  focus (·.freeBlockQueue) (fun q p => { p with freeBlockQueue := q }) m

def setRefCnt (n : ℤ) : BlockPool H :=
  { p with refCnt := Function.update p.refCnt block n }

def setHash (hash : Option H) : BlockPool H :=
  { p with blockHash := Function.update p.blockHash block hash }

def commitIntoPrefixCache (hash : H) (block : ℕ) : PyM (BlockPool H) Unit := do
  if (← get).isNull block then
    throw (.valueError "Cannot commit null block into prefix cache")
  if (← get).blockHash block ≠ none then
    throw .assertionError
  modify fun p => p.setHash block (some hash)
  if hash ∈ (← get).prefixCache then
    throw .assertionError
  modify fun p => { p with prefixCache := p.prefixCache.insert hash block }

def freeBlock : PyM (BlockPool H) Unit := do
  if (← get).isNull block then
    return
  modify fun p => p.setRefCnt block (p.refCnt block - 1)
  if (← get).refCnt block < 0 then
    throw .assertionError
  if (← get).refCnt block = 0 then
    onQueue (FreeKVCacheBlockQueue.append block)

def touch : PyM (BlockPool H) Unit := do
  if (← get).refCnt block = 0 then
    onQueue (FreeKVCacheBlockQueue.remove block)
  modify fun p => p.setRefCnt block (p.refCnt block + 1)

def getOrCommitIntoPrefixCache (hash : H) (block : ℕ) :
    PyM (BlockPool H) (Option ℕ) := do
  match (← get).prefixCache.lookup hash with
  | some prefixCacheBlock =>
    if block = prefixCacheBlock then
      return none
    touch prefixCacheBlock
    if (← get).blockHash block ≠ none then
      throw .assertionError
    freeBlock block
    return some prefixCacheBlock
  | none =>
    commitIntoPrefixCache hash block
    return none

def uncommitBlock : PyM (BlockPool H) Unit := do
  match (← get).blockHash block with
  | none => throw .assertionError
  | some hash =>
    if hash ∉ (← get).prefixCache then
      return
    modify fun p => { p.setHash block none with prefixCache := p.prefixCache.erase hash }

/-- Drops the hash of a block that has one. -/
def evict : PyM (BlockPool H) (Option H) := do
  let hash := (← get).blockHash block
  if hash ≠ none then
    uncommitBlock block
  return hash

/-- A free block, and the hash that it had. -/
def allocBlock : PyM (BlockPool H) (ℕ × Option H) := do
  let block ← onQueue FreeKVCacheBlockQueue.popleft
  if (← get).refCnt block ≠ 0 then
    throw .assertionError
  let hash ← evict block
  modify fun p => p.setRefCnt block (p.refCnt block + 1)
  if (← get).blockHash block ≠ none then
    throw .assertionError
  return (block, hash)

/-- One turn of the loop over the prefix cache: the hash of an unreferenced block is dropped. -/
def purgeBlock (purged : List H) (entry : Sigma fun _ : H => ℕ) :
    PyM (BlockPool H) (List H) := do
  if (← get).blockHash entry.2 = none then
    throw .assertionError
  if 0 < (← get).refCnt entry.2 then
    return purged
  modify fun p => p.setHash entry.2 none
  return purged ++ [entry.1]

def deleteEntry (hash : H) : PyM (BlockPool H) Unit :=
  modify fun p => { p with prefixCache := p.prefixCache.erase hash }

def resetPrefixCache : PyM (BlockPool H) Unit := do
  let blocksToPurge ← (← get).prefixCache.entries.foldlM purgeBlock []
  blocksToPurge.forM deleteEntry

/-! ### What a pool stands for -/

end BlockPool

/-- A pool without its bookkeeping: the references to its blocks, the free ones in the order in
which they are handed out, and the hashes. -/
structure PoolView (H : Type) where
  numBlocks : ℕ
  refs : Multiset ℕ
  free : List ℕ
  hash : ℕ → Option H

namespace PoolView

variable {H : Type} (v : PoolView H)

/-- The first free block is referenced, and has no hash anymore. -/
def alloc (b : ℕ) : PoolView H :=
  { v with refs := b ::ₘ v.refs, free := v.free.erase b, hash := Function.update v.hash b none }

def touch (b : ℕ) : PoolView H :=
  { v with refs := b ::ₘ v.refs, free := v.free.erase b }

/-- The last reference that is dropped puts a block at the end of the queue. -/
def drop (b : ℕ) : PoolView H :=
  { v with
    refs := v.refs.erase b
    free := if b ∈ v.refs.erase b then v.free else v.free ++ [b] }

def commit (h : H) (b : ℕ) : PoolView H :=
  { v with hash := Function.update v.hash b (some h) }

/-- Only referenced blocks keep their hashes. -/
def reset : PoolView H :=
  { v with hash := fun b => if b ∈ v.refs then v.hash b else none }

/-- A hash that some block has. -/
def Cached (h : H) : Prop := ∃ b, v.hash b = some h

/-- The blocks are either referenced or free, and no hash belongs to two of them. -/
structure WF : Prop where
  nodup : v.free.Nodup
  mem_free : ∀ b, b ∈ v.free ↔ b < v.numBlocks ∧ b ∉ v.refs
  lt_of_refs : ∀ b ∈ v.refs, b < v.numBlocks
  lt_of_hash : ∀ b h, v.hash b = some h → b < v.numBlocks
  inj : ∀ b b' h, v.hash b = some h → v.hash b' = some h → b = b'

namespace WF

variable {v : PoolView H} {b : ℕ} {h : H}

theorem touch (hv : v.WF) (hb : b < v.numBlocks) : (v.touch b).WF where
  nodup := hv.nodup.erase b
  mem_free b' := by
    change b' ∈ v.free.erase b ↔ b' < v.numBlocks ∧ b' ∉ b ::ₘ v.refs
    rw [hv.nodup.mem_erase_iff, hv.mem_free, Multiset.mem_cons]
    tauto
  lt_of_refs b' hb' := by
    rcases Multiset.mem_cons.mp hb' with rfl | hb'
    · exact hb
    · exact hv.lt_of_refs b' hb'
  lt_of_hash := hv.lt_of_hash
  inj := hv.inj

theorem alloc (hv : v.WF) (hb : b ∈ v.free) : (v.alloc b).WF :=
  { hv.touch ((hv.mem_free b).mp hb).1 with
    lt_of_hash b' h' hh := by
      refine hv.lt_of_hash b' h' ?_
      by_cases hne : b' = b
      · simp [PoolView.alloc, hne] at hh
      · simpa [PoolView.alloc, hne] using hh
    inj b₁ b₂ h' h₁ h₂ := by
      by_cases hb₁ : b₁ = b
      · simp [PoolView.alloc, hb₁] at h₁
      by_cases hb₂ : b₂ = b
      · simp [PoolView.alloc, hb₂] at h₂
      · refine hv.inj b₁ b₂ h' ?_ ?_
        · simpa [PoolView.alloc, hb₁] using h₁
        · simpa [PoolView.alloc, hb₂] using h₂ }

theorem drop (hv : v.WF) (hb : b ∈ v.refs) : (v.drop b).WF := by
  have hnot : b ∉ v.free := fun hmem => ((hv.mem_free b).mp hmem).2 hb
  have hne : ∀ b', b' ≠ b → (b' ∈ v.refs.erase b ↔ b' ∈ v.refs) := fun b' hb' =>
    Multiset.mem_erase_of_ne hb'
  refine { hv with
    nodup := ?nodup
    mem_free := ?mem_free
    lt_of_refs := fun b' hb' => hv.lt_of_refs b' (Multiset.mem_of_mem_erase hb') }
  case nodup =>
    change (if b ∈ v.refs.erase b then v.free else v.free ++ [b]).Nodup
    split
    · exact hv.nodup
    · rw [nodup_append']
      exact ⟨hv.nodup, nodup_singleton b, by simpa using hnot⟩
  case mem_free =>
    intro b'
    change b' ∈ (if b ∈ v.refs.erase b then v.free else v.free ++ [b])
      ↔ b' < v.numBlocks ∧ b' ∉ v.refs.erase b
    by_cases hbb : b' = b
    · subst hbb
      have hlt := hv.lt_of_refs b' hb
      split_ifs with hmem
      · simp [hnot, hmem]
      · simp [hmem, hlt]
    · rw [hne b' hbb, ← hv.mem_free]
      split
      · rfl
      · simp [hbb]

theorem commit (hv : v.WF) (hb : b < v.numBlocks) (hh : ¬ v.Cached h) : (v.commit h b).WF where
  nodup := hv.nodup
  mem_free := hv.mem_free
  lt_of_refs := hv.lt_of_refs
  lt_of_hash b' h' hh' := by
    by_cases hne : b' = b
    · rw [hne]
      exact hb
    · exact hv.lt_of_hash b' h' (by simpa [PoolView.commit, hne] using hh')
  inj b₁ b₂ h' h₁ h₂ := by
    have hold : ∀ b' h', (v.commit h b).hash b' = some h' →
        b' = b ∧ h' = h ∨ v.hash b' = some h' := by
      intro b' h' hh'
      by_cases hne : b' = b
      · exact Or.inl ⟨hne, by simpa [PoolView.commit, hne, eq_comm] using hh'⟩
      · exact Or.inr (by simpa [PoolView.commit, hne] using hh')
    rcases hold b₁ h' h₁ with ⟨rfl, rfl⟩ | hold₁
    · rcases hold b₂ h' h₂ with ⟨rfl, -⟩ | hold₂
      · rfl
      · exact absurd ⟨b₂, hold₂⟩ hh
    · rcases hold b₂ h' h₂ with ⟨rfl, rfl⟩ | hold₂
      · exact absurd ⟨b₁, hold₁⟩ hh
      · exact hv.inj b₁ b₂ h' hold₁ hold₂

theorem reset (hv : v.WF) : v.reset.WF where
  nodup := hv.nodup
  mem_free := hv.mem_free
  lt_of_refs := hv.lt_of_refs
  lt_of_hash b' h' hh' := by
    change (if b' ∈ v.refs then v.hash b' else none) = some h' at hh'
    split at hh'
    · exact hv.lt_of_hash b' h' hh'
    · cases hh'
  inj b₁ b₂ h' h₁ h₂ := by
    change (if b₁ ∈ v.refs then v.hash b₁ else none) = some h' at h₁
    change (if b₂ ∈ v.refs then v.hash b₂ else none) = some h' at h₂
    split at h₁
    · split at h₂
      · exact hv.inj b₁ b₂ h' h₁ h₂
      · cases h₂
    · cases h₁

end WF

end PoolView

namespace BlockPool

variable {H : Type} [DecidableEq H]

/-- The pool keeps its books right. -/
structure Shows (p : BlockPool H) (v : PoolView H) : Prop where
  wf : v.WF
  numBlocks : p.totalNumBlocks = v.numBlocks
  holds : p.freeBlockQueue.Holds v.free
  refCnt : ∀ b < v.numBlocks, p.refCnt b = v.refs.count b
  hash : p.blockHash = v.hash
  lookup : ∀ h b, p.prefixCache.lookup h = some b ↔ v.hash b = some h

theorem init_shows (n : ℕ) : (init n : BlockPool H).Shows ⟨n, 0, List.range n, fun _ => none⟩ where
  wf :=
    { nodup := nodup_range
      mem_free := by simp
      lt_of_refs := by simp
      lt_of_hash := by simp
      inj := by simp }
  numBlocks := rfl
  holds := FreeKVCacheBlockQueue.Holds.init nodup_range
  refCnt b hb := by
    have hne : b ≠ n := (show b < n from hb).ne
    simp [init, hne]
  hash := rfl
  lookup h b := by simp [init]

variable {rest : List ℕ} {e : Sigma fun _ : H => ℕ}

namespace Shows

variable {p : BlockPool H} {v : PoolView H} {b : ℕ} {h : H}

section

variable (hp : p.Shows v)

include hp

theorem isNull (hb : b < v.numBlocks) : p.isNull b = false := by
  rw [BlockPool.isNull, hp.numBlocks]
  exact decide_eq_false hb.ne

theorem numFreeBlocks : p.numFreeBlocks = v.free.length := hp.holds.num

theorem cached_iff (h : H) : h ∈ p.prefixCache ↔ v.Cached h := by
  rw [← AList.lookup_isSome, Option.isSome_iff_exists]
  exact exists_congr fun b => hp.lookup h b

theorem refCnt_eq_zero (hb : b < v.numBlocks) : p.refCnt b = 0 ↔ b ∉ v.refs := by
  rw [hp.refCnt b hb, Int.natCast_eq_zero, Multiset.count_eq_zero]

/-- **Taking a reference** to a block of the pool. -/
theorem touch (hb : b < v.numBlocks) :
    Returns (BlockPool.touch b) p fun _ p' => p'.Shows (v.touch b) := by
  rw [Returns, BlockPool.touch, spec_get_bind]
  have hcount : ∀ b' < v.numBlocks, update p.refCnt b (p.refCnt b + 1) b'
      = (b ::ₘ v.refs).count b' := by
    intro b' hb'
    rw [update_apply, Multiset.count_cons, hp.refCnt b' hb']
    split_ifs with hbb
    · rw [hbb, hp.refCnt b hb]
      simp
    · simp
  by_cases hmem : b ∈ v.refs
  · have hnot : b ∉ v.free := fun hfree => ((hp.wf.mem_free b).mp hfree).2 hmem
    rw [if_neg (fun h0 => (hp.refCnt_eq_zero hb).mp h0 hmem), spec_modify]
    refine ⟨hp.wf.touch hb, hp.numBlocks, ?_, hcount, hp.hash, hp.lookup⟩
    change p.freeBlockQueue.Holds (v.free.erase b)
    rw [erase_of_not_mem hnot]
    exact hp.holds
  · have hfree : b ∈ v.free := (hp.wf.mem_free b).mpr ⟨hb, hmem⟩
    rw [if_pos ((hp.refCnt_eq_zero hb).mpr hmem), spec_bind, onQueue, spec_focus]
    refine Spec.imp (hp.holds.remove hfree) (fun _ q hq => ?_)
    exact ⟨hp.wf.touch hb, hp.numBlocks, hq, hcount, hp.hash, hp.lookup⟩

/-- **Dropping a reference.** -/
theorem freeBlock (hb : b ∈ v.refs) :
    Returns (BlockPool.freeBlock b) p fun _ p' => p'.Shows (v.drop b) := by
  have hlt := hp.wf.lt_of_refs b hb
  have hcount : ∀ b' < v.numBlocks, update p.refCnt b (p.refCnt b - 1) b'
      = (v.refs.erase b).count b' := by
    intro b' hb'
    rw [update_apply, hp.refCnt b hlt]
    split_ifs with hbb
    · have hpos := Multiset.count_pos.mpr hb
      rw [hbb, Multiset.count_erase_self]
      omega
    · rw [Multiset.count_erase_of_ne hbb, hp.refCnt b' hb']
  have hself := hcount b hlt
  rw [update_self] at hself
  rw [Returns, BlockPool.freeBlock]
  simp only [spec_bind, spec_get, hp.isNull hlt, Bool.false_eq_true, if_false, spec_modify,
    setRefCnt, update_self, hself]
  rw [if_neg (by omega), spec_bind, spec_get]
  simp only [update_self, Int.natCast_eq_zero, Multiset.count_eq_zero]
  by_cases hmem : b ∈ v.refs.erase b
  · rw [if_neg (not_not.mpr hmem), spec_pure]
    refine ⟨hp.wf.drop hb, hp.numBlocks, ?_, hself ▸ hcount, hp.hash, hp.lookup⟩
    rw [PoolView.drop, if_pos hmem]
    exact hp.holds
  · have hnot : b ∉ v.free := fun hfree => ((hp.wf.mem_free b).mp hfree).2 hb
    rw [if_pos hmem, onQueue, spec_focus]
    refine Spec.imp (hp.holds.append hnot) (fun _ q hq => ?_)
    refine ⟨hp.wf.drop hb, hp.numBlocks, ?_, hself ▸ hcount, hp.hash, hp.lookup⟩
    rw [PoolView.drop, if_neg hmem]
    exact hq

/-- The prefix cache without the hash of a block. -/
theorem lookup_erase (hb : v.hash b = some h) (h' : H) (b' : ℕ) :
    (p.prefixCache.erase h).lookup h' = some b' ↔ update v.hash b none b' = some h' := by
  by_cases hh : h' = h
  · subst hh
    rw [AList.lookup_erase]
    have hne : ¬ update v.hash b none b' = some h' := by
      by_cases hbb : b' = b
      · simp [hbb]
      · rw [update_of_ne hbb]
        exact fun hb' => hbb (hp.wf.inj b' b h' hb' hb)
    simp [hne]
  · rw [AList.lookup_erase_ne hh, hp.lookup]
    by_cases hbb : b' = b
    · subst hbb
      simp [hb, Ne.symm hh]
    · rw [update_of_ne hbb]

/-- What makes a pool show a block handed out. -/
theorem of_alloc {q : FreeKVCacheBlockQueue ℕ} (hfree : v.free = b :: rest)
    (hq : q.Holds rest) {c : AList fun _ : H => ℕ}
    (hc : ∀ h' b', c.lookup h' = some b' ↔ update v.hash b none b' = some h') :
    Shows { p with
      refCnt := update p.refCnt b (p.refCnt b + 1)
      blockHash := update v.hash b none
      freeBlockQueue := q
      prefixCache := c } (v.alloc b) := by
  have hmem : b ∈ v.free := hfree ▸ mem_cons_self
  refine ⟨hp.wf.alloc hmem, hp.numBlocks, ?_, fun b' hb' => ?_, rfl, hc⟩
  · change q.Holds (v.free.erase b)
    rw [hfree, erase_cons_head]
    exact hq
  change update p.refCnt b (p.refCnt b + 1) b' = ((b ::ₘ v.refs).count b' : ℤ)
  rw [update_apply, Multiset.count_cons, hp.refCnt b' hb']
  split_ifs with hbb
  · rw [hp.refCnt b ((hp.wf.mem_free b).mp hmem).1, hbb]
    simp
  · simp

/-- The block that left the queue loses its hash. -/
theorem evict (b : ℕ) (q : FreeKVCacheBlockQueue ℕ) :
    Returns (BlockPool.evict b) { p with freeBlockQueue := q } fun hash p' =>
      hash = v.hash b ∧ ∃ c : AList fun _ : H => ℕ, p' = { p with
          blockHash := update v.hash b none, freeBlockQueue := q, prefixCache := c } ∧
        ∀ h' b', c.lookup h' = some b' ↔ update v.hash b none b' = some h' := by
  rw [Returns, BlockPool.evict]
  simp only [spec_bind, spec_get, hp.hash]
  cases hhash : v.hash b with
  | none =>
    have hsame : update v.hash b none = v.hash := by rw [← hhash, update_eq_self]
    simp only [ne_eq, not_true_eq_false, if_false, spec_pure, hsame]
    exact ⟨trivial, p.prefixCache, rfl, hp.lookup⟩
  | some h =>
    have hmem : h ∈ p.prefixCache := (hp.cached_iff h).mpr ⟨b, hhash⟩
    simp only [ne_eq, reduceCtorEq, not_false_eq_true, if_true, spec_bind, uncommitBlock, spec_get,
      hhash, hmem, not_true_eq_false, if_false, spec_modify, spec_pure, setHash]
    exact ⟨trivial, p.prefixCache.erase h, rfl, hp.lookup_erase hhash⟩

/-- **Handing out** the first free block. -/
theorem allocBlock (hfree : v.free = b :: rest) :
    Returns BlockPool.allocBlock p fun r p' => r = (b, v.hash b) ∧ p'.Shows (v.alloc b) := by
  obtain ⟨hlt, hnot⟩ := (hp.wf.mem_free b).mp (hfree ▸ mem_cons_self)
  have hzero : p.refCnt b = 0 := (hp.refCnt_eq_zero hlt).mpr hnot
  have hholds := hp.holds
  rw [hfree] at hholds
  rw [Returns, BlockPool.allocBlock]
  simp only [spec_bind, spec_get, onQueue, spec_focus]
  refine Spec.imp hholds.popleft ?_
  rintro x q ⟨hx, hq⟩
  rw [hx]
  simp only [hzero, ne_eq, not_true_eq_false, if_false, spec_bind]
  refine Spec.imp (hp.evict b q) ?_
  rintro _ _ ⟨rfl, c, rfl, hc⟩
  simp only [spec_modify, spec_get, setRefCnt, update_self, not_true_eq_false, if_false,
    spec_pure, true_and]
  exact hp.of_alloc hfree hq hc

/-- **Committing** a block that has no hash, under a hash that no block has. -/
theorem commitIntoPrefixCache (hb : b < v.numBlocks) (hnone : v.hash b = none) (hh : ¬ v.Cached h) :
    Returns (BlockPool.commitIntoPrefixCache h b) p fun _ p' => p'.Shows (v.commit h b) := by
  have hmem : h ∉ p.prefixCache := fun hmem => hh ((hp.cached_iff h).mp hmem)
  rw [Returns, BlockPool.commitIntoPrefixCache]
  simp only [spec_bind, spec_get, hp.isNull hb, hp.hash, hnone, Bool.false_eq_true, ne_eq,
    not_true_eq_false, if_false, spec_modify, setHash, hmem]
  refine ⟨hp.wf.commit hb hh, hp.numBlocks, hp.holds, hp.refCnt, rfl, fun h' b' => ?_⟩
  change (p.prefixCache.insert h b).lookup h' = some b' ↔ update v.hash b (some h) b' = some h'
  by_cases hhh : h' = h
  · subst hhh
    rw [AList.lookup_insert]
    by_cases hbb : b' = b
    · simp [hbb]
    · rw [update_of_ne hbb]
      exact ⟨fun heq => absurd (Option.some_inj.mp heq).symm hbb, fun hb' => absurd ⟨b', hb'⟩ hh⟩
  · rw [AList.lookup_insert_ne hhh, hp.lookup]
    by_cases hbb : b' = b
    · simp [hbb, hnone, Ne.symm hhh]
    · rw [update_of_ne hbb]

theorem lookup_eq_none (hh : ¬ v.Cached h) : p.prefixCache.lookup h = none :=
  AList.lookup_eq_none.mpr fun hmem => hh ((hp.cached_iff h).mp hmem)

/-- **Committing a block in use**: it gets the hash, or another block has the hash already and
takes its place. -/
theorem getOrCommitIntoPrefixCache (hb : b ∈ v.refs) (hhash : v.hash b = none ∨ v.hash b = some h) :
    Returns (BlockPool.getOrCommitIntoPrefixCache h b) p fun r p' =>
      (v.hash b = some h ∧ r = none ∧ p'.Shows v) ∨
      (v.hash b = none ∧ ¬ v.Cached h ∧ r = none ∧ p'.Shows (v.commit h b)) ∨
      ∃ twin, v.hash b = none ∧ v.hash twin = some h ∧ r = some twin ∧
        p'.Shows ((v.touch twin).drop b) := by
  have hlt := hp.wf.lt_of_refs b hb
  rw [Returns, BlockPool.getOrCommitIntoPrefixCache]
  simp only [spec_bind, spec_get]
  by_cases hcached : v.Cached h
  · obtain ⟨twin, htwin⟩ := hcached
    simp only [(hp.lookup h twin).mpr htwin]
    rcases hhash with hnone | hsome
    · have hne : b ≠ twin := fun heq => by simp [heq, htwin] at hnone
      rw [if_neg hne, spec_bind]
      refine Spec.imp (hp.touch (hp.wf.lt_of_hash twin h htwin)) ?_
      intro _ p₁ hp₁
      have hnone₁ : p₁.blockHash b = none := by rw [hp₁.hash]; exact hnone
      simp only [spec_bind, spec_get, hnone₁, ne_eq, not_true_eq_false, if_false]
      refine Spec.imp (hp₁.freeBlock (Multiset.mem_cons_of_mem hb)) ?_
      exact fun _ p₂ hp₂ => Or.inr (Or.inr ⟨twin, hnone, htwin, rfl, hp₂⟩)
    · rw [if_pos (hp.wf.inj b twin h hsome htwin), spec_pure]
      exact Or.inl ⟨hsome, rfl, hp⟩
  · have hnone : v.hash b = none := hhash.resolve_right fun hsome => hcached ⟨b, hsome⟩
    simp only [hp.lookup_eq_none hcached, spec_bind]
    refine Spec.imp (hp.commitIntoPrefixCache hlt hnone hcached) ?_
    exact fun _ p' hp' => Or.inr (Or.inl ⟨hnone, hcached, rfl, hp'⟩)

/-! #### Resetting the prefix cache -/

/-- The unreferenced blocks of the entries gone through lost their hashes. -/
def Purging (p p' : BlockPool H) (v : PoolView H) (done : List (Sigma fun _ : H => ℕ))
    (purged : List H) : Prop :=
  (∃ hash, p' = { p with blockHash := hash } ∧
    ∀ b, hash b = if b ∈ v.refs ∨ b ∉ done.map Sigma.snd then v.hash b else none) ∧
  ∀ h, h ∈ purged ↔ ∃ b, b ∉ v.refs ∧ (⟨h, b⟩ : Sigma fun _ : H => ℕ) ∈ done

theorem mem_entries : e ∈ p.prefixCache.entries ↔ v.hash e.2 = some e.1 := by
  rw [← hp.lookup, ← Option.mem_def, AList.mem_lookup_iff]

theorem purgeBlock {done todo : List (Sigma fun _ : H => ℕ)}
    (hsplit : p.prefixCache.entries = done ++ e :: todo) {purged : List H} {p' : BlockPool H}
    (hinv : Purging p p' v done purged) : Spec (BlockPool.purgeBlock purged e) p'
      (fun purged' p'' => Purging p p'' v (done ++ [e]) purged') fun _ _ => False := by
  obtain ⟨⟨hash, rfl, hhash⟩, hpurged⟩ := hinv
  have he : v.hash e.2 = some e.1 := hp.mem_entries.mp (hsplit ▸ by simp)
  have hlt := hp.wf.lt_of_hash _ _ he
  -- no other entry has the same block
  have hnew : e.2 ∉ done.map Sigma.snd := by
    intro hmem
    obtain ⟨e', he', heq⟩ := mem_map.mp hmem
    have hsome := hp.mem_entries.mp (show e' ∈ p.prefixCache.entries from
      hsplit ▸ mem_append_left _ he')
    rw [heq, he, Option.some_inj] at hsome
    have hnodup := p.prefixCache.nodupKeys.nodup
    rw [hsplit] at hnodup
    refine (nodup_cons.mp (nodup_middle.mp hnodup)).1 (mem_append_left _ ?_)
    rwa [show e = e' from Sigma.ext hsome (heq_of_eq heq.symm)]
  have hself : hash e.2 = some e.1 := by rw [hhash, if_pos (Or.inr hnew), he]
  have hmap : ∀ b, b ≠ e.2 → (b ∈ (done ++ [e]).map Sigma.snd ↔ b ∈ done.map Sigma.snd) := by
    intro b hb
    rw [map_append, mem_append, map_singleton, mem_singleton]
    simp only [hb, or_false]
  rw [BlockPool.purgeBlock]
  simp only [spec_bind, spec_get, hself, reduceCtorEq, if_false, hp.refCnt e.2 hlt,
    Int.natCast_pos, Multiset.count_pos]
  by_cases href : e.2 ∈ v.refs
  · rw [if_pos href, spec_pure]
    refine ⟨⟨hash, rfl, fun b => ?_⟩, fun h => ?_⟩
    · rw [hhash]
      by_cases hb : b = e.2
      · simp [hb, href]
      · simp only [hmap b hb]
    · rw [hpurged]
      refine exists_congr fun b => and_congr_right fun hb => ?_
      rw [mem_append, mem_singleton]
      refine ⟨Or.inl, fun hmem => hmem.resolve_right fun heq => ?_⟩
      exact hb (by rwa [← heq] at href)
  · rw [if_neg href, spec_bind, spec_modify, spec_pure]
    refine ⟨⟨update hash e.2 none, rfl, fun b => ?_⟩, fun h => ?_⟩
    · by_cases hb : b = e.2
      · subst hb
        simp [href]
      · rw [update_of_ne hb, hhash]
        simp only [hmap b hb]
    · rw [mem_append, hpurged, mem_singleton]
      constructor
      · rintro (⟨b, hb, hmem⟩ | rfl)
        · exact ⟨b, hb, mem_append_left _ hmem⟩
        · exact ⟨e.2, href, by simp⟩
      · rintro ⟨b, hb, hmem⟩
        rcases mem_append.mp hmem with hmem | hmem
        · exact Or.inl ⟨b, hb, hmem⟩
        · exact Or.inr (congrArg Sigma.fst (mem_singleton.mp hmem))

end

/-- The prefix cache after entries were deleted one by one. -/
theorem forM_deleteEntry (purged : List H) (p : BlockPool H) :
    Returns (purged.forM deleteEntry) p fun _ p' =>
      ∃ c : AList fun _ : H => ℕ, p' = { p with prefixCache := c } ∧
        ∀ h, c.lookup h = if h ∈ purged then none else p.prefixCache.lookup h := by
  refine Spec.forM (I := fun done p' => ∃ c : AList fun _ : H => ℕ,
    p' = { p with prefixCache := c } ∧
    ∀ h, c.lookup h = if h ∈ done then none else p.prefixCache.lookup h) purged ?_
    ⟨p.prefixCache, rfl, by simp⟩
  rintro done h _ - _ ⟨c, rfl, hc⟩
  refine ⟨c.erase h, rfl, fun h' => ?_⟩
  by_cases hh : h' = h
  · rw [hh, AList.lookup_erase]
    simp
  · rw [AList.lookup_erase_ne hh, hc]
    simp [hh]

/-- **Resetting** the prefix cache drops the hashes of unreferenced blocks. -/
theorem resetPrefixCache (hp : p.Shows v) :
    Returns BlockPool.resetPrefixCache p fun _ p' => p'.Shows v.reset := by
  have hstart : Purging p p v [] [] := by
    refine ⟨⟨v.hash, ?_, by simp⟩, by simp⟩
    rw [← hp.hash]
  have hloop := Spec.foldlM (I := fun done purged p' => Purging p p' v done purged)
    p.prefixCache.entries [] (fun done e todo hsplit purged p' => hp.purgeBlock hsplit) hstart
  rw [Returns, BlockPool.resetPrefixCache]
  simp only [spec_bind, spec_get]
  refine Spec.imp hloop ?_
  rintro purged _ ⟨⟨hash, rfl, hhash⟩, hpurged⟩
  refine Spec.imp (forM_deleteEntry purged _) ?_
  rintro - _ ⟨c, rfl, hc⟩
  have hreset : hash = v.reset.hash := by
    funext b
    rw [hhash]
    change _ = if b ∈ v.refs then v.hash b else none
    by_cases href : b ∈ v.refs
    · simp [href]
    · simp only [href, false_or, if_false, ite_eq_right_iff]
      intro hb
      refine Option.eq_none_iff_forall_ne_some.mpr fun h hh => hb ?_
      exact mem_map.mpr ⟨⟨h, b⟩, hp.mem_entries.mpr hh, rfl⟩
  refine ⟨hp.wf.reset, hp.numBlocks, hp.holds, hp.refCnt, hreset, fun h b => ?_⟩
  rw [hc]
  change _ ↔ (if b ∈ v.refs then v.hash b else none) = some h
  split
  · rename_i hmem
    obtain ⟨b', hb', hentry⟩ := (hpurged h).mp hmem
    have hb'h := hp.mem_entries.mp hentry
    simp only [reduceCtorEq, false_iff]
    split_ifs with href
    · exact fun hbh => hb' (hp.wf.inj b b' h hbh hb'h ▸ href)
    · exact fun hbh => by cases hbh
  · rename_i hmem
    rw [hp.lookup]
    split
    · rfl
    · rename_i href
      simp only [reduceCtorEq, iff_false]
      exact fun hbh => hmem ((hpurged h).mpr ⟨b, href, hp.mem_entries.mpr hbh⟩)

end Shows

end BlockPool
