/-
The pool of pages that all flat caches draw from (`paged_kv_cache/jenga_block_pool.py`).

A huge block is cut into the little blocks of one cache at a time.

* `computeJengaRatios` — how many pages of each cache a huge block holds;
* `JengaBlockPool` — the pool, with `allocBlock`, `touch`, `freeBlock` and the prefix caches.

A block is its cache and its id; the fields of the block objects are kept in the pool.
-/
import MojoMac.FreeQueue

open StateSpec

/-- The least common multiple as the code computes it. -/
def jengaLcm : List ℕ → ℕ
  | [] => 0
  | x :: xs => xs.foldl (fun x y => x * y / Nat.gcd x y) x

/-- A dictionary as it is printed. -/
def dictText {K V : Type} [ToString K] [ToString V] (entries : List (K × V)) : String :=
  "\x7b" ++ ", ".intercalate (entries.map fun (k, v) => s!"'{k}': {v}") ++ "\x7d"

/-- The huge blocks that a byte budget holds, their size, and the pages of each cache in one of
them. -/
def computeJengaRatios {K : Type} [ToString K] (toHumanReadableBytes : ℤ → String)
    (availableBytes : ℤ) (cacheSizes : List (K × ℤ)) : Except PyError (ℕ × ℕ × List (K × ℕ)) :=
  if cacheSizes.length = 0 then
    throw (.valueError s!"cache_sizes must be non-empty, found {dictText cacheSizes}")
  else if cacheSizes.any (·.2 ≤ 0) then
    throw (.valueError s!"cache_sizes must be positive, found {dictText cacheSizes}")
  else if availableBytes ≤ 0 then
    throw (.valueError s!"available_bytes must be positive, found {availableBytes}")
  else
    let hugePageBytes := jengaLcm (cacheSizes.map (·.2.toNat))
    let numHugeBlocks := availableBytes.toNat / hugePageBytes
    if numHugeBlocks < 2 then
      let pages := ", ".intercalate
        (cacheSizes.map fun (cacheId, size) => s!"{cacheId}={toHumanReadableBytes size}")
      throw (.valueError (s!"{toHumanReadableBytes availableBytes} is too small to "
        ++ "build a pool. A huge block is the least common multiple of the "
        ++ s!"page sizes ({pages}), so it takes "
        ++ s!"{toHumanReadableBytes hugePageBytes}, and the pool needs "
        ++ "at least two of them -- "
        ++ s!"{toHumanReadableBytes (2 * hugePageBytes)} -- because huge "
        ++ "block 0 is the null page every cache shares."))
    else
      return (numHugeBlocks, hugePageBytes,
        cacheSizes.map fun (cacheId, size) => (cacheId, hugePageBytes / size.toNat))

structure LittleKVCacheBlock (K : Type) where
  cacheId : K
  bid : ℕ
  deriving DecidableEq

/-- What never changes of a pool; `cacheRatios` is only read at the ids of the caches. -/
structure JengaGeometry (K : Type) where
  numHugeBlocks : ℕ
  cacheIds : List K
  cacheRatios : K → ℕ

namespace JengaGeometry

variable {K : Type} (g : JengaGeometry K)

/-- The huge block whose bytes a block occupies. -/
def hugeBlock (block : LittleKVCacheBlock K) : ℕ := block.bid / g.cacheRatios block.cacheId

/-- The blocks of a cache in a huge block. -/
def littleBlocks (huge : ℕ) (cacheId : K) : List (LittleKVCacheBlock K) :=
  (List.range' (huge * g.cacheRatios cacheId) (g.cacheRatios cacheId)).map (⟨cacheId, ·⟩)

end JengaGeometry

structure JengaBlockPool (K H : Type) extends JengaGeometry K where
  refCnt : LittleKVCacheBlock K → ℤ
  blockHash : LittleKVCacheBlock K → Option H
  littleBlockType : ℕ → Option K
  freeLittleBlocks : K → FreeKVCacheBlockQueue (LittleKVCacheBlock K)
  freeHugeBlocks : FreeKVCacheBlockQueue ℕ
  prefixCaches : K → AList fun _ : H => LittleKVCacheBlock K

namespace JengaBlockPool

variable {K H : Type} [DecidableEq K] [DecidableEq H] (p : JengaBlockPool K H)

def init [ToString K] (numHugeBlocks : ℕ) (cacheIds : List K) (cacheRatios : K → ℕ) :
    Except PyError (JengaBlockPool K H) :=
  let ratios := cacheIds.map fun cacheId => (cacheId, cacheRatios cacheId)
  if numHugeBlocks < 2 then
    throw (.valueError ("num_huge_blocks must be at least 2, since huge block 0 is the "
      ++ s!"null block, found {numHugeBlocks}"))
  else if cacheIds.length = 0 then
    throw (.valueError s!"cache_ratios must be non-empty, found {dictText ratios}")
  else if cacheIds.any (cacheRatios · ≤ 0) then
    throw (.valueError s!"cache_ratios must be positive, found {dictText ratios}")
  else
    return {
      numHugeBlocks := numHugeBlocks
      cacheIds := cacheIds
      cacheRatios := cacheRatios
      -- the reference count of the null blocks is pinned
      refCnt := fun block => if block.bid = 0 then 42 else 0
      blockHash := fun _ => none
      littleBlockType := fun _ => none
      freeLittleBlocks := fun _ => .init []
      freeHugeBlocks := .init (List.range' 1 (numHugeBlocks - 1))
      prefixCaches := fun _ => ∅ }

variable (huge : ℕ)

/-- The reference count of a huge block. -/
def hugeRefCnt : ℤ :=
  match p.littleBlockType huge with
  | none => 0
  | some cacheId => ((p.littleBlocks huge cacheId).map p.refCnt).sum

variable (block : LittleKVCacheBlock K)

def isNull : Bool := block.bid = 0

variable (cacheId : K)

/-- An operation on the free little blocks of a cache. -/
def onLittle {α : Type} (m : PyM (FreeKVCacheBlockQueue (LittleKVCacheBlock K)) α) :
    PyM (JengaBlockPool K H) α :=
  focus (·.freeLittleBlocks cacheId)
    (fun q p => { p with freeLittleBlocks := Function.update p.freeLittleBlocks cacheId q }) m

/-- An operation on the free huge blocks. -/
def onHuge {α : Type} (m : PyM (FreeKVCacheBlockQueue ℕ) α) : PyM (JengaBlockPool K H) α :=
  focus (·.freeHugeBlocks) (fun q p => { p with freeHugeBlocks := q }) m

def setRefCnt (n : ℤ) : JengaBlockPool K H :=
  { p with refCnt := Function.update p.refCnt block n }

/-- Drops a hash of a cache; it is an error if it is not there. -/
def dropHash (hash : H) (block : LittleKVCacheBlock K) :
    PyM (JengaBlockPool K H) Unit := do
  if hash ∉ (← get).prefixCaches cacheId then
    throw .keyError
  modify fun p => { p with
    prefixCaches := Function.update p.prefixCaches cacheId ((p.prefixCaches cacheId).erase hash)
    blockHash := Function.update p.blockHash block none }

def uncommitBlock : PyM (JengaBlockPool K H) Unit := do
  match (← get).blockHash block with
  | none => return
  | some hash => dropHash block.cacheId hash block

/-- Takes a huge block out of the free queue, if it is there. -/
def unqueueHuge : PyM (JengaBlockPool K H) Unit := do
  if huge ∈ (← get).freeHugeBlocks.freeBlocks then
    onHuge (FreeKVCacheBlockQueue.remove huge)

/-- Drops the hashes of another cache in a huge block. -/
def evictOther (cacheId : K) : PyM (JengaBlockPool K H) Unit := do
  match (← get).littleBlockType huge with
  | none => return
  | some prevType =>
    if prevType ≠ cacheId then
      ((← get).littleBlocks huge prevType).forM uncommitBlock

/-- Puts the little blocks of a cache in a huge block in circulation. -/
def circulate (cacheId : K) : PyM (JengaBlockPool K H) Unit := do
  modify fun p => { p with
    littleBlockType := Function.update p.littleBlockType huge (some cacheId) }
  ((← get).littleBlocks huge cacheId).forM fun block =>
    onLittle cacheId (FreeKVCacheBlockQueue.append block)

def claimHugeBlock (cacheId : K) : PyM (JengaBlockPool K H) Unit := do
  if (← get).hugeRefCnt huge ≠ 0 then
    throw .assertionError
  unqueueHuge huge
  evictOther huge cacheId
  circulate huge cacheId

/-- Claims a huge block for a cache that has no free block left. -/
def claimIfNoneFree [ToString K] (cacheId : K) : PyM (JengaBlockPool K H) Unit := do
  if ((← get).freeLittleBlocks cacheId).numFreeBlocks = 0 then
    if (← get).freeHugeBlocks.numFreeBlocks = 0 then
      throw (.insufficientBlocksError s!"No free blocks available for {cacheId}")
    claimHugeBlock (← onHuge FreeKVCacheBlockQueue.popleft) cacheId

def allocBlock [ToString K] (cacheId : K) :
    PyM (JengaBlockPool K H) (LittleKVCacheBlock K) := do
  if cacheId ∉ (← get).cacheIds then
    throw .keyError
  claimIfNoneFree cacheId
  let block ← onLittle cacheId FreeKVCacheBlockQueue.popleft
  uncommitBlock block
  modify fun p => p.setRefCnt block (p.refCnt block + 1)
  return block

def commitIntoPrefixCache (hash : H) (block : LittleKVCacheBlock K) :
    PyM (JengaBlockPool K H) Unit := do
  if isNull block then
    throw .assertionError
  if (← get).blockHash block ≠ none then
    throw .assertionError
  if hash ∈ (← get).prefixCaches block.cacheId then
    throw .assertionError
  modify fun p => { p with
    prefixCaches := Function.update p.prefixCaches block.cacheId
      ((p.prefixCaches block.cacheId).insert hash block)
    blockHash := Function.update p.blockHash block (some hash) }

/-- Parks the huge block of a block that went out of use, if nothing of it is in use. -/
def parkIfIdle : PyM (JengaBlockPool K H) Unit := do
  let huge := (← get).hugeBlock block
  if (← get).hugeRefCnt huge = 0 then
    if (← get).littleBlockType huge ≠ some block.cacheId then
      throw .assertionError
    ((← get).littleBlocks huge block.cacheId).forM fun littleBlock =>
      onLittle block.cacheId (FreeKVCacheBlockQueue.remove littleBlock)
    onHuge (FreeKVCacheBlockQueue.append huge)

def freeBlock : PyM (JengaBlockPool K H) Unit := do
  if isNull block then
    return
  modify fun p => p.setRefCnt block (p.refCnt block - 1)
  if (← get).refCnt block < 0 then
    throw .assertionError
  if (← get).refCnt block = 0 then
    onLittle block.cacheId (FreeKVCacheBlockQueue.append block)
    parkIfIdle block

/-- Takes an unreferenced block out of the free blocks. -/
def revive : PyM (JengaBlockPool K H) Unit := do
  if (← get).refCnt block = 0 then
    let huge := (← get).hugeBlock block
    if huge ∈ (← get).freeHugeBlocks.freeBlocks then
      claimHugeBlock huge block.cacheId
    onLittle block.cacheId (FreeKVCacheBlockQueue.remove block)

def touch : PyM (JengaBlockPool K H) Unit := do
  if (← get).littleBlockType ((← get).hugeBlock block) ≠ some block.cacheId then
    throw .assertionError
  revive block
  modify fun p => p.setRefCnt block (p.refCnt block + 1)

def getOrCommitIntoPrefixCache (hash : H) (block : LittleKVCacheBlock K) :
    PyM (JengaBlockPool K H) (Option (LittleKVCacheBlock K)) := do
  if isNull block then
    throw .assertionError
  match ((← get).prefixCaches block.cacheId).lookup hash with
  | some prefixCacheBlock =>
    if block.bid = prefixCacheBlock.bid then
      return none
    touch prefixCacheBlock
    if (← get).blockHash block ≠ none then
      throw .assertionError
    freeBlock block
    return some prefixCacheBlock
  | none =>
    commitIntoPrefixCache hash block
    return none

def numFreeBlocks : ℤ :=
  p.freeHugeBlocks.numFreeBlocks * p.cacheRatios cacheId
    + (p.freeLittleBlocks cacheId).numFreeBlocks

/-- Drops the hashes of the unreferenced blocks of one cache, and counts them. -/
def resetCache : PyM (JengaBlockPool K H) (K × ℕ) := do
  let p ← get
  let unreferenced := (p.prefixCaches cacheId).entries.filter fun entry => p.refCnt entry.2 = 0
  unreferenced.forM fun entry => dropHash cacheId entry.1 entry.2
  return (cacheId, unreferenced.length)

def resetPrefixCache : PyM (JengaBlockPool K H) (List (K × ℕ)) := do
  (← get).cacheIds.mapM resetCache

end JengaBlockPool
