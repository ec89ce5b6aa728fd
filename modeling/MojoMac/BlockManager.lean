/-
The block manager (`paged_kv_cache/block_manager.py`).

A block manager has a pool of blocks for every replica, and the lists of blocks of the requests.
Blocks are reused from the prefix cache of the replica, copied from another replica or loaded by
the connector, and committed when their tokens were processed.

* `BlockManager` — the manager, with the device memory that its blocks are pages of;
* `Call` — the manager and the request that it is called with;
* `Op` — its operations; what the connector answers is given with them.

Metrics, the checks of `enable_runtime_checks` and dummy requests are left out.
-/
import MojoMac.BlockPool
import MojoMac.BlockHashGrowth

open StateSpec

/-- A transfer that is not complete: the pages that it brings, if it is a load, the blocks that
it pins, and the hashes of the blocks that are committed when it completes. -/
structure PendingTransfer (H P : Type) where
  pages : List P
  blocks : List ℕ
  commitHashes : Option (List H)

/-- What the connector answers to a load: the pages of the first blocks asked for, and whether
the transfer is complete. -/
structure LoadReply (P : Type) where
  pages : List P
  isComplete : Bool

/-- What a block manager is created with; `nullConnector` says that its connector is the one
that never loads anything. -/
structure ManagerConfig (H : Type) where
  totalNumBlocks : ℕ
  hashConfig : HashConfig H
  numReplicas : ℕ
  enablePrefixCaching : Bool
  nullConnector : Bool
  crossReplicaCopyEnabled : Bool
  onlyUseKvConnectorLastLevelCache : Bool

/-- The manager of blocks with hashes in `H` for requests with ids in `R`; a page of device
memory holds a `P`. -/
structure BlockManager (H R P : Type) extends ManagerConfig H where
  kvMemory : ℕ → ℕ → P
  pendingOffloads : ℕ → List (List H)
  pendingTransfers : ℕ → List (PendingTransfer H P)
  deviceBlockPools : ℕ → BlockPool H
  reqToReplica : AList fun _ : R => ℕ
  reqToBlocks : R → List ℕ
  reqToHashes : R → List H
  reqToCommittedIdx : R → ℕ

/-- The manager and the request of a call: both are changed by it. -/
structure Call (H R P : Type) where
  manager : BlockManager H R P
  ctx : TextContext R

namespace BlockManager

variable {H R P : Type} [DecidableEq H] [DecidableEq R] {α : Type}
  (m : BlockManager H R P) (replicaIdx : ℕ)

def blockSize : ℕ := m.hashConfig.blockSize

/-- The constructor, with the pages that the device memory has. -/
def init (config : ManagerConfig H) (kvMemory : ℕ → ℕ → P) : BlockManager H R P where
  toManagerConfig := config
  kvMemory := kvMemory
  pendingOffloads := fun _ => []
  pendingTransfers := fun _ => []
  deviceBlockPools := fun _ => .init config.totalNumBlocks
  reqToReplica := ∅
  reqToBlocks := fun _ => []
  reqToHashes := fun _ => []
  reqToCommittedIdx := fun _ => 0

def setPool (pool : BlockPool H) : BlockManager H R P :=
  { m with deviceBlockPools := Function.update m.deviceBlockPools replicaIdx pool }

/-- An operation on the pool of a replica. -/
def onPool (op : PyM (BlockPool H) α) :
    PyM (BlockManager H R P) α := do
  if (← get).numReplicas ≤ replicaIdx then
    throw .indexError
  focus (·.deviceBlockPools replicaIdx) (fun pool m => m.setPool replicaIdx pool) op

/-- The pool of a replica. -/
def getPool : PyM (BlockManager H R P) (BlockPool H) := do
  if (← get).numReplicas ≤ replicaIdx then
    throw .indexError
  return (← get).deviceBlockPools replicaIdx

def setBlocks (r : R) (blocks : List ℕ) : BlockManager H R P :=
  { m with reqToBlocks := Function.update m.reqToBlocks r blocks }

def setHashes (r : R) (hashes : List H) : BlockManager H R P :=
  { m with reqToHashes := Function.update m.reqToHashes r hashes }

def setCommittedIdx (r : R) (n : ℕ) : BlockManager H R P :=
  { m with reqToCommittedIdx := Function.update m.reqToCommittedIdx r n }

def setTransfers (transfers : List (PendingTransfer H P)) : BlockManager H R P :=
  { m with pendingTransfers := Function.update m.pendingTransfers replicaIdx transfers }

def setOffloads (runs : List (List H)) : BlockManager H R P :=
  { m with pendingOffloads := Function.update m.pendingOffloads replicaIdx runs }

def setPage (replicaIdx block : ℕ) (page : P) : BlockManager H R P :=
  { m with
    kvMemory :=
      Function.update m.kvMemory replicaIdx (Function.update (m.kvMemory replicaIdx) block page) }

/-- Pages that were transferred to blocks of a replica. -/
def writePages (blocks : List ℕ) (pages : List P) (m : BlockManager H R P) : BlockManager H R P :=
  (blocks.zip pages).foldl (fun m (block, page) => m.setPage replicaIdx block page) m

def numCommittedBlocks (r : R) : ℕ := m.reqToCommittedIdx r / m.blockSize

section Claims

variable [ToString R]

def claim (r : R) (replicaIdx : ℕ) : PyM (BlockManager H R P) Unit := do
  match (← get).reqToReplica.lookup r with
  | some existing => throw (.valueError s!"Request is already claimed, on replica {existing}: {r}")
  | none => modify fun m => { m with reqToReplica := m.reqToReplica.insert r replicaIdx }

def replicaOf (r : R) : PyM (BlockManager H R P) ℕ := do
  match (← get).reqToReplica.lookup r with
  | none => throw (.valueError
      s!"Request is not claimed, so it holds no pages to work with: {r}")
  | some replicaIdx => return replicaIdx

end Claims

/-! ### Reusing blocks -/

def allocateDeviceBlock : PyM (BlockManager H R P) ℕ := do
  let (block, _) ← onPool replicaIdx BlockPool.allocBlock
  return block

/-- The replica that has a block with the hash, the preferred one first, and the block. -/
def findBlockInAnyReplica (hash : H) (preferredReplica : ℕ) : Option (ℕ × ℕ) :=
  match (m.deviceBlockPools preferredReplica).prefixCache.lookup hash with
  | some block => some (preferredReplica, block)
  | none => ((List.range m.numReplicas).filter (· ≠ preferredReplica)).findSome? fun replicaIdx =>
      ((m.deviceBlockPools replicaIdx).prefixCache.lookup hash).map (replicaIdx, ·)

/-- A copy to be made: the hash of the page, the block it goes to and the one it comes from. -/
structure PageCopy (H : Type) where
  hash : H
  dst : ℕ
  src : ℕ

/-- The copies by their source replica, in the order in which the replicas were met. -/
def addCopy (copies : List (ℕ × List (PageCopy H))) (srcReplica : ℕ) (copy : PageCopy H) :
    List (ℕ × List (PageCopy H)) :=
  match copies with
  | [] => [(srcReplica, [copy])]
  | (replicaIdx, pending) :: copies =>
    if replicaIdx = srcReplica then (replicaIdx, pending ++ [copy]) :: copies
    else (replicaIdx, pending) :: addCopy copies srcReplica copy

/-- The loop over the hashes: it ends at the first one that cannot be served. -/
def gatherBlocks (replicaIdx : ℕ) (blocks : List ℕ) (copies : List (ℕ × List (PageCopy H))) :
    List H → PyM (BlockManager H R P) (List ℕ × List (ℕ × List (PageCopy H)))
  | [] => return (blocks, copies)
  | hash :: hashes => do
    match ((← get).deviceBlockPools replicaIdx).prefixCache.lookup hash with
    | some block =>
      onPool replicaIdx (BlockPool.touch block)
      gatherBlocks replicaIdx (blocks ++ [block]) copies hashes
    | none =>
      if !(← get).crossReplicaCopyEnabled then
        return (blocks, copies)
      match (← get).findBlockInAnyReplica hash replicaIdx with
      | none => return (blocks, copies)
      | some (srcReplica, src) =>
        if ((← get).deviceBlockPools replicaIdx).numFreeBlocks = 0 then
          return (blocks, copies)
        let dst ← allocateDeviceBlock replicaIdx
        gatherBlocks replicaIdx (blocks ++ [dst]) (addCopy copies srcReplica ⟨hash, dst, src⟩) hashes

def copyBlocksAcrossReplicas (dstReplica srcReplica : ℕ)
    (pending : List (PageCopy H)) : BlockManager H R P :=
  writePages dstReplica (pending.map (·.dst)) (pending.map fun c => m.kvMemory srcReplica c.src) m

/-- The page that was copied is found from now on. -/
def commitCopy (copy : PageCopy H) : PyM (BlockPool H) Unit :=
  BlockPool.commitIntoPrefixCache copy.hash copy.dst

def getFullBlocksFromDevicePrefixCache (desiredHashes : List H) (replicaIdx : ℕ) :
    PyM (BlockManager H R P) (List ℕ) := do
  if (← get).onlyUseKvConnectorLastLevelCache then
    return []
  let _ ← getPool replicaIdx
  let (blocks, copies) ← gatherBlocks replicaIdx [] [] desiredHashes
  modify fun m => copies.foldl (fun m (srcReplica, pending) =>
    m.copyBlocksAcrossReplicas replicaIdx srcReplica pending) m
  onPool replicaIdx ((copies.flatMap Prod.snd).forM commitCopy)
  return blocks

/-- A transfer is recorded, with its blocks pinned. -/
def trackTransfer (transfer : PendingTransfer H P) :
    PyM (BlockManager H R P) Unit := do
  if transfer.blocks = [] then
    return
  onPool replicaIdx (transfer.blocks.forM BlockPool.touch)
  modify fun m => m.setTransfers replicaIdx (m.pendingTransfers replicaIdx ++ [transfer])

/-- One turn of the loop that commits loaded blocks. -/
def commitLoaded (onlyUseKvConnectorLastLevelCache : Bool) (loaded : ℕ × H) :
    PyM (BlockPool H) Unit := do
  if loaded.2 ∈ (← get).prefixCache then
    if !onlyUseKvConnectorLastLevelCache then
      throw .assertionError
  else
    BlockPool.commitIntoPrefixCache loaded.2 loaded.1

/-- Loaded blocks are committed at once if their transfer is complete, else it is recorded. -/
def commitOrTrack (reply : LoadReply P) (loadedBlocks : List ℕ)
    (loadedHashes : List H) : PyM (BlockManager H R P) Unit := do
  if reply.isComplete then
    modify (writePages replicaIdx loadedBlocks reply.pages)
    let onlyConnector := (← get).onlyUseKvConnectorLastLevelCache
    onPool replicaIdx ((loadedBlocks.zip loadedHashes).forM (commitLoaded onlyConnector))
  else
    trackTransfer replicaIdx ⟨reply.pages, loadedBlocks, some loadedHashes⟩

/-- The loaded blocks, and whether the transfer is complete. -/
def getFullBlocksFromHostPrefixCache (desiredHashes : List H) (replicaIdx : ℕ)
    (reply : LoadReply P) : PyM (BlockManager H R P) (List ℕ × Bool) := do
  let pool ← getPool replicaIdx
  if desiredHashes = [] then
    return ([], true)
  let numHashesToLoad := min desiredHashes.length pool.numFreeBlocks.toNat
  let desiredHashes := desiredHashes.take numHashesToLoad
  let blocks ← (List.range numHashesToLoad).mapM fun _ => allocateDeviceBlock replicaIdx
  let numLoaded := min reply.pages.length blocks.length
  onPool replicaIdx ((blocks.drop numLoaded).forM BlockPool.freeBlock)
  let loadedBlocks := blocks.take numLoaded
  let loadedHashes := desiredHashes.take numLoaded
  if loadedBlocks = [] then
    return ([], true)
  commitOrTrack replicaIdx reply loadedBlocks loadedHashes
  return (loadedBlocks, reply.isComplete)

/-- The blocks for the hashes of the request behind the committed ones, as far as they are found,
and whether their transfer is complete. -/
def getFullBlocksFromPrefixCache [ToString R] (r : R) (reply : LoadReply P) :
    PyM (BlockManager H R P) (List ℕ × Bool) := do
  if !(← get).enablePrefixCaching then
    throw .assertionError
  let replicaIdx ← replicaOf r
  let uncommittedHashes := ((← get).reqToHashes r).drop ((← get).numCommittedBlocks r)
  let deviceBlocks ← getFullBlocksFromDevicePrefixCache uncommittedHashes replicaIdx
  if (← get).nullConnector then
    return (deviceBlocks, true)
  let (hostBlocks, isComplete) ← getFullBlocksFromHostPrefixCache
    (uncommittedHashes.drop deviceBlocks.length) replicaIdx reply
  return (deviceBlocks ++ hostBlocks, isComplete)

/-- The last block of a request is given back. -/
def popBlock (r : R) (replicaIdx : ℕ) : PyM (BlockManager H R P) Unit := do
  match ((← get).reqToBlocks r).getLast? with
  | none => throw .indexError
  | some block =>
    modify fun m => m.setBlocks r (m.reqToBlocks r).dropLast
    onPool replicaIdx (BlockPool.freeBlock block)

/-! ### Committing blocks -/

/-- How many blocks are filled with tokens whose values are known; the placeholders are among
the tokens. -/
def numComputedBlocks (ctx : TextContext R) : ℕ :=
  min ctx.tokens.processedLength (ctx.tokens.len - ctx.pendingFutureCount) / m.blockSize

/-- One turn of the loop that commits the blocks of a request. -/
def commitBlock (r : R) (replicaIdx blockIdx : ℕ) : PyM (BlockManager H R P) Unit := do
  match ((← get).reqToBlocks r)[blockIdx]? with
  | none => throw .indexError
  | some block =>
    match ((← get).reqToHashes r)[blockIdx]? with
    | none => throw .indexError
    | some hash =>
      match ← onPool replicaIdx (BlockPool.getOrCommitIntoPrefixCache hash block) with
      | none => return
      | some newBlock => modify fun m => m.setBlocks r ((m.reqToBlocks r).set blockIdx newBlock)

/-- The newly committed blocks are to be offloaded as one sequence. -/
def queueOffload (r : R) (replicaIdx numCommitted numComputed : ℕ) (m : BlockManager H R P) :
    BlockManager H R P :=
  if numCommitted < numComputed then
    m.setOffloads replicaIdx (m.pendingOffloads replicaIdx ++
      [((m.reqToHashes r).take numComputed).drop numCommitted])
  else m

def commitToPrefixCache [ToString R] (ctx : TextContext R) :
    PyM (BlockManager H R P) Unit := do
  let r := ctx.requestId
  let replicaIdx ← replicaOf r
  let _ ← getPool replicaIdx
  let numCommitted := (← get).numCommittedBlocks r
  let numComputed := (← get).numComputedBlocks ctx
  (List.range' numCommitted (numComputed - numCommitted)).forM (commitBlock r replicaIdx)
  modify (queueOffload r replicaIdx numCommitted numComputed)
  modify fun m => m.setCommittedIdx r (numComputed * m.blockSize)

/-! ### Transfers -/

/-- The blocks of a sequence up to the first hash that was evicted. -/
def resolveRun (pool : BlockPool H) : List H → List ℕ
  | [] => []
  | hash :: hashes =>
    match pool.prefixCache.lookup hash with
    | none => []
    | some block => block :: resolveRun pool hashes

/-- One turn of the loop of `offload`; the flag says if the transfer is complete at once. -/
def offloadRun (run : List H × Bool) :
    PyM (BlockManager H R P) Unit := do
  let srcBlocks := resolveRun ((← get).deviceBlockPools replicaIdx) run.1
  if srcBlocks ≠ [] ∧ !run.2 then
    trackTransfer replicaIdx ⟨[], srcBlocks, none⟩

/-- The pending sequences go to the connector; it completes those for which `isComplete` holds at
once. -/
def offload (isComplete : ℕ → Bool) :
    PyM (BlockManager H R P) Unit := do
  let _ ← getPool replicaIdx
  let runs := (← get).pendingOffloads replicaIdx
  (runs.zip ((List.range runs.length).map isComplete)).forM (offloadRun replicaIdx)
  modify fun m => m.setOffloads replicaIdx []

/-- A loaded block is committed, unless it or its hash was meanwhile. -/
def commitArrived (loaded : ℕ × H) : PyM (BlockPool H) Unit := do
  if (← get).blockHash loaded.1 = none ∧ loaded.2 ∉ (← get).prefixCache then
    BlockPool.commitIntoPrefixCache loaded.2 loaded.1

/-- The end of a transfer that is complete. -/
def finishTransfer (pending : PendingTransfer H P) :
    PyM (BlockManager H R P) Unit := do
  modify (writePages replicaIdx pending.blocks pending.pages)
  match pending.commitHashes with
  | none => pure ()
  | some commitHashes =>
    onPool replicaIdx ((pending.blocks.zip commitHashes).forM commitArrived)
    if commitHashes.length < pending.blocks.length then
      throw (.valueError "zip() argument 2 is shorter than argument 1")
    if pending.blocks.length < commitHashes.length then
      throw (.valueError "zip() argument 2 is longer than argument 1")
  onPool replicaIdx (pending.blocks.forM BlockPool.freeBlock)

/-- One turn of the loop of `poll_transfers` over the transfers of a replica. -/
def pollTransfer (stillPending : List (PendingTransfer H P))
    (pending : PendingTransfer H P × Bool) :
    PyM (BlockManager H R P) (List (PendingTransfer H P)) := do
  if !pending.2 then
    return stillPending ++ [pending.1]
  finishTransfer replicaIdx pending.1
  return stillPending

/-- The transfers of a replica; those are complete for which `isComplete` holds. -/
def pollReplica (isComplete : ℕ → ℕ → Bool) (replicaIdx : ℕ) :
    PyM (BlockManager H R P) Unit := do
  let pendingList := (← get).pendingTransfers replicaIdx
  if pendingList = [] then
    return
  let complete := (List.range pendingList.length).map (isComplete replicaIdx)
  let stillPending ← (pendingList.zip complete).foldlM (pollTransfer replicaIdx) []
  modify fun m => m.setTransfers replicaIdx stillPending

def pollTransfers (isComplete : ℕ → ℕ → Bool) : PyM (BlockManager H R P) Unit := do
  (List.range (← get).numReplicas).forM (pollReplica isComplete)

/-! ### Releasing and allocating -/

section Requests

variable [ToString R]

def release (r : R) : PyM (BlockManager H R P) Unit := do
  let replicaIdx ← replicaOf r
  let blocks := (← get).reqToBlocks r
  -- with prefix caching the tail of the request is freed first
  let orderedBlocks := if (← get).enablePrefixCaching then blocks.reverse else blocks
  onPool replicaIdx (orderedBlocks.forM BlockPool.freeBlock)
  modify fun m => { ((m.setBlocks r []).setHashes r []).setCommittedIdx r 0 with
    reqToReplica := m.reqToReplica.erase r }

/-- The length for which a request needs blocks. -/
def computeSeqLen (ctx : TextContext R) (numDraftTokens numDraftTokensPerStep : ℕ) : ℤ :=
  let blockDraftExtra := if 0 < numDraftTokens ∧ numDraftTokensPerStep = numDraftTokens then 1 else 0
  ctx.tokens.processedLength + ctx.tokens.activeLength + (ctx.maybeAcceptedDraftTokens
    + 2 * numDraftTokens + 1 + blockDraftExtra - max 1 ctx.pendingFutureCount)

def numBlocksToAllocate (ctx : TextContext R) (numDraftTokens numDraftTokensPerStep : ℕ) : ℕ :=
  let numRequiredBlocks :=
    -(-computeSeqLen ctx numDraftTokens numDraftTokensPerStep).fdiv m.blockSize
  (max (numRequiredBlocks - (m.reqToBlocks ctx.requestId).length) 0).toNat

/-- A new block for a request. -/
def pushBlock (r : R) (replicaIdx : ℕ) : PyM (BlockManager H R P) Unit := do
  let newBlock ← allocateDeviceBlock replicaIdx
  modify fun m => m.setBlocks r (m.reqToBlocks r ++ [newBlock])

def allocateNewBlocks (ctx : TextContext R) (numDraftTokens numDraftTokensPerStep : ℕ) :
    PyM (BlockManager H R P) Unit := do
  let r := ctx.requestId
  let replicaIdx ← replicaOf r
  let pool ← getPool replicaIdx
  let m ← get
  let totalKvSlots := m.totalNumBlocks * m.blockSize
  let seqLen := ctx.tokens.len + ctx.draftTokensToVerify + ctx.maybeAcceptedDraftTokens
  if totalKvSlots < seqLen then
    throw (.insufficientBlocksError
      (s!"Insufficient KV pages for a single request with {seqLen} tokens.\n"
      ++ s!"The KVCache has {m.totalNumBlocks} pages with page size {m.blockSize}. "
      ++ s!"This is only enough to support {totalKvSlots} tokens.\n"
      ++ "You must restart your process and set a lower max seq len to prevent a single request "
      ++ "from using the entire KV cache."))
  let numNewBlocks := m.numBlocksToAllocate ctx numDraftTokens numDraftTokensPerStep
  if (m.reqToBlocks r).length * m.blockSize < ctx.tokens.processedLength then
    throw .assertionError
  let free := pool.numFreeBlocks
  if free < numNewBlocks then
    throw (.insufficientBlocksError
      (s!"Cannot get {numNewBlocks} free blocks from the free block queue"
      ++ s!" (only {free} available; {m.totalNumBlocks - free}/{m.totalNumBlocks} blocks"
      ++ " currently in use)"))
  (List.range numNewBlocks).forM fun _ => pushBlock r replicaIdx

def resetPrefixCache : PyM (BlockManager H R P) Unit := do
  (List.range (← get).numReplicas).forM fun replicaIdx =>
    onPool replicaIdx BlockPool.resetPrefixCache

end Requests

end BlockManager

/-! ### Calls with a request -/

namespace Call

variable {H R P : Type} [DecidableEq H] [DecidableEq R] {α : Type}

def onManager (op : PyM (BlockManager H R P) α) : PyM (Call H R P) α :=
  focus (·.manager) (fun m c => { c with manager := m }) op

/-- A method of the token buffer of the request. -/
def onTokens (f : TokenBuffer → Except PyError TokenBuffer) : PyM (Call H R P) Unit := do
  match f (← get).ctx.tokens with
  | .error e => throw e
  | .ok tokens => modify fun c => { c with ctx := { c.ctx with tokens := tokens } }

def computeHashesForRequest : PyM (Call H R P) Unit := do
  let r := (← get).ctx.requestId
  let hashes := (← get).manager.reqToHashes r
  let (newHashes, tokens) := (← get).manager.hashConfig.computeBlockHashes (← get).ctx hashes
  onTokens fun b => .ok { b with all := tokens }
  match newHashes with
  | .error e => throw e
  | .ok newHashes => onManager (modify fun m => m.setHashes r (hashes ++ newHashes))

variable [ToString R]

def step : PyM (Call H R P) Unit := do
  if !(← get).manager.enablePrefixCaching then
    return
  computeHashesForRequest
  onManager (BlockManager.commitToPrefixCache (← get).ctx)

/-- The window starts at the committed index. -/
def moveToCommitted : PyM (Call H R P) Unit := do
  let c ← get
  let delta : ℤ := c.ctx.tokens.processedLength - c.manager.reqToCommittedIdx c.ctx.requestId
  if 0 < delta then
    onTokens (·.rewindProcessing delta)
  else if delta < 0 then
    onTokens (·.skipProcessing (-delta))

def releaseUncommittedBlocks : PyM (Call H R P) Unit := do
  let r := (← get).ctx.requestId
  let replicaIdx ← onManager (BlockManager.replicaOf r)
  let _ ← onManager (BlockManager.getPool replicaIdx)
  let numCommitted := (← get).manager.numCommittedBlocks r
  let numBlocks := ((← get).manager.reqToBlocks r).length
  if numBlocks < numCommitted then
    throw .assertionError
  onManager ((List.range (numBlocks - numCommitted)).forM fun _ =>
    BlockManager.popBlock r replicaIdx)
  moveToCommitted

/-- The prefix that was found in the cache is put in the place of the uncommitted blocks. -/
def takeOver (blocks : List ℕ) : PyM (Call H R P) ℤ := do
  let r := (← get).ctx.requestId
  releaseUncommittedBlocks
  onManager (modify fun m => (m.setBlocks r (m.reqToBlocks r ++ blocks)).setCommittedIdx r
    (m.reqToCommittedIdx r + blocks.length * m.blockSize))
  let skipAmount : ℤ :=
    (← get).manager.reqToCommittedIdx r - (← get).ctx.tokens.processedLength
  onTokens (·.skipProcessing skipAmount)
  if (← get).ctx.tokens.activeLength < 1 then
    throw .assertionError
  return skipAmount

def setCachedPrefixLength (n : ℤ) : PyM (Call H R P) Unit :=
  modify fun c => { c with ctx := { c.ctx with cachedPrefixLength := some n } }

/-- How many tokens can be skipped, and whether the transfer of their pages is complete. -/
def reuseBlocksFromPrefixCache (reply : LoadReply P) : PyM (Call H R P) (ℤ × Bool) := do
  let r := (← get).ctx.requestId
  let _ ← onManager (BlockManager.replicaOf r)
  if !(← get).manager.enablePrefixCaching ∨ (← get).ctx.tokens.activeLength = 1 then
    return (0, true)
  let isFirstAdmission := (← get).ctx.tokens.processedLength = 0
  computeHashesForRequest
  let (prefixCacheBlocks, isComplete) ←
    onManager (BlockManager.getFullBlocksFromPrefixCache r reply)
  let skipAmount ← if 0 < prefixCacheBlocks.length then takeOver prefixCacheBlocks else pure 0
  if isFirstAdmission then
    setCachedPrefixLength skipAmount
  return (skipAmount, isComplete)

end Call
