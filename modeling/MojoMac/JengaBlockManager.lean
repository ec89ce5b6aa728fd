/-
Prefix cache hits over groups of caches (`paged_kv_cache/jenga_block_manager.py`).

The caches of a group are written in lockstep.  A group with full attention can resume from a
hit if it has all the blocks before it, a group with a sliding window if it has those of the
window before it.

* `longestCacheHit`, `claimHitBlocks` — the two coordinators of a group;
* `findLongestPrefixCacheHit` — the hit that all groups can resume from.
-/
import MojoMac.JengaBlockPool

open StateSpec

/-- The attention pattern of a group. -/
inductive KVCacheGroupId where
  | full
  | slidingWindow (windowSize : ℕ) (pos : 0 < windowSize)
  deriving DecidableEq

namespace KVCacheGroupId

def isSlidingWindow : KVCacheGroupId → Bool
  | .full => false
  | .slidingWindow _ _ => true

end KVCacheGroupId

/-- A coordinator: the caches of a group. -/
structure KVGroup (K : Type) where
  leafIds : List K
  groupId : KVCacheGroupId

namespace KVGroup

variable {K H : Type} [DecidableEq K] [DecidableEq H] (group : KVGroup K)

def ceildiv (a b : ℤ) : ℤ := -Int.fdiv a (-b)

def isInPrefixCache (pool : JengaBlockPool K H) (hash : H) : Bool :=
  group.leafIds.all fun leafId => hash ∈ pool.prefixCaches leafId

/-- The loop of the coordinator of a full group, at the hash with index `numHitBlocks`. -/
def fullHit (held : H → Bool) (numHitBlocks : ℕ) : List H → ℕ
  | [] => numHitBlocks
  | hash :: hashes => if !held hash then numHitBlocks else fullHit held (numHitBlocks + 1) hashes

/-- The loop of the coordinator of a window group, downwards to the hash with index `0`. -/
def windowHit (held : ℕ → Bool) (blocksInWindow : ℕ) : ℕ → ℕ → ℕ
  | 0, run => run
  | idx + 1, run =>
    if !held idx then
      windowHit held blocksInWindow idx 0
    else if blocksInWindow ≤ run + 1 then
      idx + (run + 1)
    else
      windowHit held blocksInWindow idx (run + 1)

def blocksInWindow (windowSize pageSize : ℕ) : ℕ := (ceildiv ((windowSize : ℤ) - 1) pageSize).toNat

/-- How many of the hashes the group could resume from. -/
def longestCacheHit (pageSize : ℕ) (pool : JengaBlockPool K H) (desiredHashes : List H) : ℕ :=
  match group.groupId with
  | .full => fullHit (group.isInPrefixCache pool) 0 desiredHashes
  | .slidingWindow windowSize _ =>
    if blocksInWindow windowSize pageSize = 0 then
      desiredHashes.length
    else
      windowHit (fun idx => desiredHashes[idx]?.any (group.isInPrefixCache pool))
        (blocksInWindow windowSize pageSize) desiredHashes.length 0

/-- The first slot of a hit that a group needs. -/
def low (pageSize : ℕ) (pool : JengaBlockPool K H) (desiredHashes : List H) : ℕ :=
  match group.groupId with
  | .full => 0
  | .slidingWindow windowSize _ =>
    let low := desiredHashes.length - blocksInWindow windowSize pageSize
    if (desiredHashes.drop low).all (group.isInPrefixCache pool) then low
    else desiredHashes.length

/-- The blocks of a request in each cache. -/
abbrev Rows (K : Type) : Type := K → List (LittleKVCacheBlock K)

/-- Takes the block of a cache with a hash. -/
def claimBlock (hash : H) (rows : Rows K) (leafId : K) :
    PyM (JengaBlockPool K H) (Rows K) := do
  match ((← get).prefixCaches leafId).lookup hash with
  | none => throw .keyError
  | some block =>
    JengaBlockPool.touch block
    return Function.update rows leafId (rows leafId ++ [block])

/-- The slots below the window are nulled, the others are taken. -/
def claimHitBlocks (pageSize : ℕ) (desiredHashes : List H) :
    PyM (JengaBlockPool K H) (Rows K) := do
  let low := group.low pageSize (← get) desiredHashes
  let rows : Rows K := fun leafId => List.replicate low ⟨leafId, 0⟩
  (desiredHashes.drop low).foldlM
    (fun rows hash => group.leafIds.foldlM (claimBlock hash) rows) rows

end KVGroup

/-- How a cache tiles a huge block, and its group. -/
structure KVLeafInfo where
  ratio : ℕ
  groupId : KVCacheGroupId

/-- The manager as far as hits are concerned. -/
structure JengaBlockManager (K H R : Type) where
  blockSize : ℕ
  blockSize_pos : 0 < blockSize
  leafInfos : AList fun _ : K => KVLeafInfo
  pools : List (JengaBlockPool K H)
  reqToHashes : AList fun _ : R => List H
  reqToCommittedIdx : AList fun _ : R => ℕ

namespace JengaBlockManager

variable {K H R : Type} [DecidableEq K] [DecidableEq H] [DecidableEq R]

/-- The keys of `dict.fromkeys`: without duplicates, in the order in which they first appear. -/
def fromKeys {α : Type} [DecidableEq α] (xs : List α) : List α :=
  xs.foldl (fun keys x => if x ∈ keys then keys else keys ++ [x]) []

/-- The coordinators of the groups. -/
def groups (m : JengaBlockManager K H R) : List (KVGroup K) :=
  (fromKeys (m.leafInfos.entries.map fun leaf => leaf.2.groupId)).map fun groupId =>
    ⟨(m.leafInfos.entries.filter fun leaf => leaf.2.groupId = groupId).map Sigma.fst, groupId⟩

/-- One pass over the window groups. -/
def narrowPass (pageSize : ℕ) (pool : JengaBlockPool K H) (windowed : List (KVGroup K))
    (desiredHashes : List H) : List H :=
  windowed.foldl (fun desiredHashes group =>
    desiredHashes.take (group.longestCacheHit pageSize pool desiredHashes)) desiredHashes

/-- The passes over the window groups; every pass but the last shortens the hit. -/
def narrow (pageSize : ℕ) (pool : JengaBlockPool K H) (windowed : List (KVGroup K)) :
    ℕ → List H → List H
  | 0, desiredHashes => desiredHashes
  | fuel + 1, desiredHashes =>
    if windowed = [] ∨ desiredHashes = [] then
      desiredHashes
    else
      let narrowed := narrowPass pageSize pool windowed desiredHashes
      if ¬ narrowed.length < desiredHashes.length ∨ windowed.length = 1 then narrowed
      else narrow pageSize pool windowed fuel narrowed

/-- The hashes of the longest hit. -/
def hitHashes (m : JengaBlockManager K H R) (pool : JengaBlockPool K H) (desiredHashes : List H) :
    List H :=
  let desiredHashes := match m.groups.find? fun group => group.groupId = .full with
    | none => desiredHashes
    | some group => desiredHashes.take (group.longestCacheHit m.blockSize pool desiredHashes)
  narrow m.blockSize pool (m.groups.filter fun group => group.groupId.isSlidingWindow)
    (desiredHashes.length + 1) desiredHashes

/-- An operation on the pool of a replica. -/
def onPool {α : Type} (replicaIdx : ℕ) (f : PyM (JengaBlockPool K H) α) :
    PyM (JengaBlockManager K H R) α := fun m =>
  match m.pools[replicaIdx]? with
  | none => .error .indexError m
  | some pool =>
    focus (fun _ => pool) (fun pool m => { m with pools := m.pools.set replicaIdx pool }) f m

/-- The value of a dictionary. -/
def getItem {V : Type} (dict : JengaBlockManager K H R → AList fun _ : R => V) (reqId : R) :
    PyM (JengaBlockManager K H R) V := do
  match (dict (← get)).lookup reqId with
  | none => throw .keyError
  | some v => return v

/-- The blocks of a group are added to those of the groups before it. -/
def claimGroup (pageSize : ℕ) (desiredHashes : List H) (hitBlocks : KVGroup.Rows K)
    (group : KVGroup K) : PyM (JengaBlockPool K H) (KVGroup.Rows K) := do
  let rows ← group.claimHitBlocks pageSize desiredHashes
  return fun leafId => if leafId ∈ group.leafIds then rows leafId else hitBlocks leafId

/-- The blocks of the longest hit of a request, and their number. -/
def findLongestPrefixCacheHit (reqId : R) (replicaIdx : ℕ) :
    PyM (JengaBlockManager K H R) (KVGroup.Rows K × ℕ) := do
  let numCommittedBlocks := (← getItem reqToCommittedIdx reqId) / (← get).blockSize
  let desiredHashes := (← getItem reqToHashes reqId).drop numCommittedBlocks
  let m ← get
  onPool replicaIdx do
    let desiredHashes := m.hitHashes (← get) desiredHashes
    let hitBlocks ← m.groups.foldlM (claimGroup m.blockSize desiredHashes) fun _ => []
    return (hitBlocks, desiredHashes.length)

end JengaBlockManager
