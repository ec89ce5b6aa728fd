/-
Counting the cached prefix of a request (`paged_kv_cache/cache_manager.py`,
`paged_kv_cache/block_manager.py`), for the choice of a replica.

* `countCachedPrefixBlocks`, `getPrefixCacheHitCounts` — the hits of a request on every replica;
* `hitsOn` — what is to be counted on a replica;
* `getPrefixCacheHitCounts_eq` — nothing changes, and the same is counted for all of them;
* `getPrefixCacheHitCounts_iff` — that is right when all replicas hold as much of the prefix as
  the first one.

The connector is a function from the hashes it is asked for to its hits on the host and on disk.
-/
import MojoMac.BlockManager

open StateSpec List

structure PrefixCacheHits where
  deviceBlocks : ℕ := 0
  hostBlocks : ℕ := 0
  diskBlocks : ℕ := 0
  deriving DecidableEq, Repr

variable {H R P : Type} [DecidableEq H] (countCachedPrefix : List H → ℕ × ℕ)

namespace BlockManager

/-- The property `device_block_pool`. -/
def deviceBlockPool : PyM (BlockManager H R P) (BlockPool H) :=
  getPool 0

/-- The loop over the hashes: it ends at the first one that is not in the pool. -/
def numDeviceHits (pool : BlockPool H) : List H → ℕ
  | [] => 0
  | hash :: hashes => if hash ∉ pool.prefixCache then 0 else numDeviceHits pool hashes + 1

/-- The counts, when the device has the first `numDeviceHits` blocks. -/
def prefixCacheHits (blockHashes : List H) (numDeviceHits : ℕ) : PrefixCacheHits :=
  let remaining := blockHashes.drop numDeviceHits
  let (numHostHits, numDiskHits) := if remaining = [] then (0, 0) else countCachedPrefix remaining
  ⟨numDeviceHits, numHostHits, numDiskHits⟩

def countCachedPrefixBlocks (blockHashes : List H) : PyM (BlockManager H R P) PrefixCacheHits := do
  if !(← get).enablePrefixCaching then
    return {}
  if (← get).onlyUseKvConnectorLastLevelCache then
    return prefixCacheHits countCachedPrefix blockHashes 0
  let pool ← deviceBlockPool
  return prefixCacheHits countCachedPrefix blockHashes (numDeviceHits pool blockHashes)

theorem numDeviceHits_eq (pool : BlockPool H) (hashes : List H) :
    numDeviceHits pool hashes = (hashes.takeWhile (· ∈ pool.prefixCache)).length := by
  induction hashes with
  | nil => rfl
  | cons hash hashes ih =>
    rw [numDeviceHits, takeWhile_cons]
    by_cases hmem : hash ∈ pool.prefixCache <;> simp [hmem, ih]

end BlockManager

namespace Call

open BlockManager HashConfig

/-- The method of the cache manager; its replicas share the block manager. -/
def getPrefixCacheHitCounts : PyM (Call H R P) (List PrefixCacheHits) := do
  let m := (← get).manager
  if !m.enablePrefixCaching then
    return replicate m.numReplicas {}
  if m.numReplicas = 0 then
    throw .indexError
  let (blockHashes, tokens) := m.hashConfig.computeBlockHashes (← get).ctx []
  onTokens fun b => .ok { b with all := tokens }
  match blockHashes with
  | .error e => throw e
  | .ok blockHashes =>
    (range m.numReplicas).mapM fun _ =>
      onManager (countCachedPrefixBlocks countCachedPrefix blockHashes)

/-- The hashes of the blocks of the request. -/
def chain (c : Call H R P) : List H :=
  c.manager.hashConfig.hashesOf c.ctx.cacheSalt c.ctx.content

/-- The leading blocks of the request that a replica holds. -/
def resident (c : Call H R P) (replicaIdx : ℕ) : List H :=
  c.chain.takeWhile (· ∈ (c.manager.deviceBlockPools replicaIdx).prefixCache)

/-- What is to be counted on a replica: those blocks, and what the connector has behind them. -/
def hitsOn (c : Call H R P) (replicaIdx : ℕ) : PrefixCacheHits :=
  prefixCacheHits countCachedPrefix c.chain (c.resident replicaIdx).length

variable {f : List H → ℕ × ℕ} {c : Call H R P}

theorem hitsOn_eq_iff (i j : ℕ) : hitsOn f c i = hitsOn f c j ↔ c.resident i = c.resident j := by
  refine ⟨fun h => ?_, fun h => by rw [hitsOn, h, hitsOn]⟩
  have hlength : (c.resident i).length = (c.resident j).length :=
    congrArg PrefixCacheHits.deviceBlocks h
  have hprefix := prefix_of_prefix_length_le (List.takeWhile_prefix _)
    (List.takeWhile_prefix _) hlength.le
  exact hprefix.eq_of_length hlength

variable (hcaching : c.manager.enablePrefixCaching = true)
  (hdevice : c.manager.onlyUseKvConnectorLastLevelCache = false)

include hcaching hdevice

/-- Whatever the replica, the pool of the first one is looked at. -/
theorem mapM_countCachedPrefixBlocks (hpos : 0 < c.manager.numReplicas) (replicas : List ℕ) :
    Returns (replicas.mapM fun _ => onManager (countCachedPrefixBlocks f c.chain)) c
      fun hits c' => hits = replicate replicas.length (hitsOn f c 0) ∧ c' = c := by
  induction replicas with
  | nil => exact ⟨rfl, rfl⟩
  | cons r replicas ih =>
    have hcount : Returns (onManager (countCachedPrefixBlocks f c.chain)) c
        fun hits c' => hits = hitsOn f c 0 ∧ c' = c := by
      simp only [Returns, onManager, spec_focus, countCachedPrefixBlocks, deviceBlockPool, getPool,
        spec_bind, spec_get, hcaching, hdevice, Bool.not_true, Bool.false_eq_true, if_false,
        hpos.not_ge, spec_pure, hitsOn, resident, numDeviceHits_eq, and_self]
    rw [mapM_cons]
    refine hcount.bind ?_
    rintro hits _ ⟨rfl, rfl⟩
    refine ih.bind ?_
    rintro hits _ ⟨rfl, rfl⟩
    exact ⟨rfl, rfl⟩

variable (hvalid : c.manager.hashConfig.Valid) (hcontent : c.ctx.HasContent)

include hvalid hcontent

theorem getPrefixCacheHitCounts_eq (hpos : 0 < c.manager.numReplicas) :
    getPrefixCacheHitCounts f c = .ok (replicate c.manager.numReplicas (hitsOn f c 0)) c := by
  have hhashes := computeBlockHashes_nil hvalid hcontent
  have htokens : (c.manager.hashConfig.computeBlockHashes c.ctx []).2 = c.ctx.tokens.all :=
    computeBlockHashes_snd ..
  have hreturns : Returns (getPrefixCacheHitCounts f) c fun hits c' =>
      hits = replicate c.manager.numReplicas (hitsOn f c 0) ∧ c' = c := by
    rw [Returns, getPrefixCacheHitCounts]
    have hloop := mapM_countCachedPrefixBlocks (f := f) hcaching hdevice hpos
      (range c.manager.numReplicas)
    rw [length_range] at hloop
    simp only [spec_bind, spec_get, hcaching, Bool.not_true, Bool.false_eq_true, if_false,
      hpos.ne', hhashes, htokens, onTokens]
    exact hloop
  obtain ⟨hits, _, hrun, rfl, rfl⟩ := returns_iff.mp hreturns
  exact hrun

/-- **The hits of every replica** are counted right just when the leading blocks that a replica
holds are those that the first one holds. -/
theorem getPrefixCacheHitCounts_iff :
    (∃ hits, getPrefixCacheHitCounts f c = .ok hits c ∧
      hits = (range c.manager.numReplicas).map (hitsOn f c)) ↔
    0 < c.manager.numReplicas ∧ ∀ r < c.manager.numReplicas, c.resident r = c.resident 0 := by
  rcases Nat.eq_zero_or_pos c.manager.numReplicas with hzero | hpos
  · refine iff_of_false ?_ fun h => absurd hzero h.1.ne'
    rintro ⟨hits, hrun, -⟩
    have hraises : Raises (getPrefixCacheHitCounts f) c fun _ _ => True := by
      rw [Raises, getPrefixCacheHitCounts]
      simp only [spec_bind, spec_get, hcaching, Bool.not_true, Bool.false_eq_true, if_false,
        hzero, if_true, spec_throw]
    obtain ⟨e, _, herror, -⟩ := raises_iff.mp hraises
    cases hrun.symm.trans herror
  rw [getPrefixCacheHitCounts_eq hcaching hdevice hvalid hcontent hpos]
  simp only [← hitsOn_eq_iff (f := f)]
  have hlist : (range c.manager.numReplicas).map (hitsOn f c) =
      replicate c.manager.numReplicas (hitsOn f c 0) ↔
      ∀ r < c.manager.numReplicas, hitsOn f c r = hitsOn f c 0 := by
    simp [eq_replicate_iff]
  constructor
  · rintro ⟨_, hok, rfl⟩
    obtain ⟨heq, -⟩ := EStateM.Result.ok.inj hok
    exact ⟨hpos, hlist.mp heq.symm⟩
  · rintro ⟨-, hall⟩
    exact ⟨_, rfl, (hlist.mpr hall).symm⟩

omit hcaching hdevice hvalid hcontent

/-- A request of three tokens, and replicas with four blocks each. -/
def probe (numReplicas : ℕ) : Call (ℕ × ℤ) ℕ Unit where
  manager := .init ⟨4, sumConfig .sha256, numReplicas, true, true, false, false⟩
    fun _ _ => ()
  ctx := imageRequest [4, 9, 6]

theorem getPrefixCacheHitCounts_single : ∃ hits,
    getPrefixCacheHitCounts (fun _ => (0, 0)) (probe 1) = .ok hits (probe 1) ∧
      hits = (range 1).map (hitsOn (fun _ => (0, 0)) (probe 1)) :=
  (getPrefixCacheHitCounts_iff rfl rfl (valid_sumConfig .sha256) (hasContent_imageRequest _)).mpr
    ⟨Nat.one_pos, fun r hr => by rw [Nat.lt_one_iff.mp hr]⟩

/-- The second replica holds the first block of the request, and is said to hold none. -/
theorem getPrefixCacheHitCounts_first_pool :
    let m := (probe 2).manager
    let pool := finalState (BlockPool.commitIntoPrefixCache (32, 4) 0) (m.deviceBlockPools 1)
    let c : Call (ℕ × ℤ) ℕ Unit := ⟨m.setPool 1 pool, (probe 2).ctx⟩
    getPrefixCacheHitCounts (fun _ => (0, 0)) c = .ok [{}, {}] c ∧
      hitsOn (fun _ => (0, 0)) c 1 = ⟨1, 0, 0⟩ := by
  constructor <;> rfl

end Call
