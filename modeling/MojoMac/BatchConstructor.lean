/-
The batches of text requests (`serve/scheduler/batch_constructor/text_batch_constructor.py`).

A request waits for its grammar, in a pool, or in the queue of a replica for context encoding (CE)
or for the generation of tokens (TG).  `constructBatch` takes requests from the queues of each
replica; `advanceRequests` puts them back after the batch has run.

* `Services` — what the constructor asks of the KV cache, the grammar gate and the pipeline;
* `TextBatchConstructor` — the state; a context is found by its request id, as the queues of the
  source refer to one object;
* `ReplicaBatch` — the batch of a replica, with what was offered to its budgets;
* `addCeRequests`, `addTgRequests`, `planCeStep`, `constructBatch`, `advanceRequests`,
  `releaseRequest` — the operations.

The data-parallel padding is left out: its requests are not known to the constructor.
-/
import MojoMac.GenerationContext
import MojoMac.LoraCache
import MojoMac.TokenBudget

open StateSpec

/-- The configuration, with what `__post_init__` checks.  Real numbers are of a type `F` with the
operations that are used; nothing is assumed of their rounding. -/
structure TokenGenerationSchedulerConfig (F : Type) where
  maxBatchSize : ℕ
  targetTokensPerBatchCe : ℕ
  maxSeqLen : Option ℤ
  maxBatchTotalTokens : Option ℤ
  enableChunkedPrefill : Bool
  chunkedPrefillMinChunkSize : ℕ
  enableInFlightBatching : Bool
  dpCeBalanceTimeoutMs : F
  dpCeBalanceThreshold : F
  dpCeBalanceEnableDynamicChunkSize : Bool
  maxBatchSize_pos : 0 < maxBatchSize
  targetTokensPerBatchCe_pos : 0 < targetTokensPerBatchCe
  maxSeqLen_le : ∀ len ∈ maxSeqLen, ∀ total ∈ maxBatchTotalTokens, len ≤ total
  maxBatchSize_le : maxBatchSize ≤ targetTokensPerBatchCe

inductive BatchSchedulingStrategy where
  | prefillFirst
  | decodeFirst
  | balanced
  | perReplica
  deriving DecidableEq, Repr

/-- What is asked of the KV cache, the grammar gate, the pipeline and the clock, which are in some
state of type `W`.  Nothing is assumed of the answers.  `alloc` tells whether there were blocks,
with the transfer that loads the reused ones, and how many tokens the reused blocks hold. -/
structure Services (n : ℕ) (R W T F : Type) where
  pageSize : ℕ
  pageSize_pos : 0 < pageSize
  contains : R → W → Bool
  claim : R → Fin (n + 1) → W → W
  release : R → W → W
  alloc : R → TokenArray → W → Option T × ℕ × W
  numReqBlocks : R → W → ℕ
  isComplete : T → W → Bool
  usedPct : Fin (n + 1) → W → F
  pendingTransfersExist : Fin (n + 1) → W → Bool
  inflightKvTransferCount : Option (Fin (n + 1) → W → ℕ)
  prefixCacheHitCounts : R → TokenArray → W → Option (Fin (n + 1) → ℕ)
  hasGrammarGate : Bool
  submit : R → W → W
  isReady : R → W → Bool
  installReady : R → W → Option String × W
  releaseGrammar : R → W → W
  releasePipeline : R → W → W
  now : W → F

/-- The attributes of the constructor that do not change, and the model of each request. -/
structure BatchSettings (n : ℕ) (R N W T F : Type) where
  schedulerConfig : TokenGenerationSchedulerConfig F
  batchSchedulingStrategy : BatchSchedulingStrategy
  tgPriorityKvPercentage : F
  services : Services n R W T F
  modelName : R → N

/-- The requests of a replica. -/
structure ReplicaRequests (R N : Type) where
  ceReqs : OrderedDict R Unit
  tgReqs : OrderedDict R Unit
  activeLoras : Finset N
  deferredLoraRequests : OrderedDict R Unit

/-- A request that was offered to the budgets of a batch: its tokens, the budgets before, and the
page-aligned length of the CE requests that were in the batch. -/
structure Candidate where
  tokens : TokenArray
  budget : TokenBudgetCollection
  ceLength : ℕ

/-- The batch of a replica: its requests, with the loop that added each of them, and the budgets.
`offered` is the history of the CE requests that were offered to the budgets. -/
structure ReplicaBatch (R : Type) where
  batch : OrderedDict R RequestType
  tokenBudget : TokenBudgetCollection
  offered : List Candidate

namespace ReplicaBatch

variable {R : Type} [DecidableEq R]

def length (b : ReplicaBatch R) : ℕ := b.batch.length

/-- The context-encoding requests of the batch. -/
def ceRequests (b : ReplicaBatch R) : List R :=
  (b.batch.entries.filter (·.2 = .ce)).map Prod.fst

end ReplicaBatch

/-- The batch constructor. -/
structure TextBatchConstructor (n : ℕ) (R N M L W T F : Type) where
  world : W
  contexts : R → GenerationContext R L
  loraManager : Option (LoRAManager N M)
  grammarPending : OrderedDict R (Option (Fin (n + 1)))
  grammarFailed : List (R × String)
  replicas : Fin (n + 1) → ReplicaRequests R N
  boundRequests : OrderedDict R (Fin (n + 1))
  requestIdToLoraName : OrderedDict R (Option N)
  onloadingReqs : OrderedDict R (Fin (n + 1) × T)
  cePending : OrderedDict R (Fin (n + 1) → ℤ)
  ceArrival : OrderedDict R F
  ceDeferredReplicas : Finset (Fin (n + 1))
  ceStepQuota : Option (Fin (n + 1) → ℤ)

/-- Operations of the constructor. -/
abbrev BatchM (n : ℕ) (R N M L W T F α : Type) : Type :=
  PyM (TextBatchConstructor n R N M L W T F) α

namespace TextBatchConstructor

variable {n : ℕ} {R N M L W T F : Type} [DecidableEq R] [DecidableEq N]

/-- The constructor. -/
def init (world : W) (contexts : R → GenerationContext R L)
    (loraManager : Option (LoRAManager N M)) :
    Except PyError (TextBatchConstructor n R N M L W T F) :=
  if loraManager.isSome ∧ 1 < n + 1 then
    throw (.valueError "LoRA does not support data parallelism.")
  else
    return ⟨world, contexts, loraManager, .empty, [], fun _ => ⟨.empty, .empty, ∅, .empty⟩, .empty,
      .empty, .empty, .empty, .empty, ∅, none⟩

/-! ### Parts of the state -/

def onWorld (f : W → W) : BatchM n R N M L W T F Unit :=
  modify fun s => { s with world := f s.world }

def onReplica (i : Fin (n + 1)) (f : ReplicaRequests R N → ReplicaRequests R N) :
    BatchM n R N M L W T F Unit :=
  modify fun s => { s with replicas := Function.update s.replicas i (f (s.replicas i)) }

def onContext {α : Type} (requestId : R) (m : PyM (GenerationContext R L) α) :
    BatchM n R N M L W T F α :=
  focus (·.contexts requestId)
    (fun ctx s => { s with contexts := Function.update s.contexts requestId ctx }) m

def tokens (s : TextBatchConstructor n R N M L W T F) (requestId : R) : TokenArray :=
  (s.contexts requestId).tokens

def isLora (name : N) (s : TextBatchConstructor n R N M L W T F) : Bool :=
  match s.loraManager with
  | none => false
  | some m => m.isLora name

def isActiveLora (name : N) (s : TextBatchConstructor n R N M L W T F) : Bool :=
  match s.loraManager with
  | none => false
  | some m => m.isActiveLora name

def contains (s : TextBatchConstructor n R N M L W T F) (requestId : R) : Bool :=
  requestId ∈ s.boundRequests || requestId ∈ s.cePending || requestId ∈ s.grammarPending ||
    requestId ∈ s.onloadingReqs

section Operations

variable [ToString R] [IntCast F] [Div F] [Sub F] [LE F] [DecidableLE F] [LT F] [DecidableLT F]
  (e : BatchSettings n R N W T F) (s : TextBatchConstructor n R N M L W T F)
  (replicaIdx : Fin (n + 1))

/-! ### New requests -/

def createNewTokenBudget (ceCapacity : Option ℤ) : TokenBudgetCollection :=
  ⟨.active (.init (ceCapacity.getD e.schedulerConfig.targetTokensPerBatchCe)
      e.schedulerConfig.enableChunkedPrefill RequestType.all
      e.schedulerConfig.chunkedPrefillMinChunkSize) ::
    match e.schedulerConfig.maxBatchTotalTokens with
    | none => []
    | some total => [.total (.init total [.ce, .mixed] e.services.pageSize)]⟩

/-- `min(l, key=key)`: the first of the smallest. -/
def argminIn (key : Fin (n + 1) → ℤ) (l : List (Fin (n + 1))) : Option (Fin (n + 1)) :=
  letI : Preorder ℤ := Int.instLinearOrder.toPreorder
  l.argmin key

/-- `min(range(num_replicas), key=key)`. -/
def argmin (key : Fin (n + 1) → ℤ) : Fin (n + 1) := (argminIn key (List.finRange (n + 1))).getD 0

def getNextReplicaIdx (externalRequestsPerReplica : Option (Fin (n + 1) → ℕ))
    (s : TextBatchConstructor n R N M L W T F) : Fin (n + 1) :=
  argmin fun i => (s.replicas i).ceReqs.length + (s.replicas i).tgReqs.length +
    (externalRequestsPerReplica.getD fun _ => 0) i

def bindRequest (requestId : R) (replicaIdx : Fin (n + 1)) : BatchM n R N M L W T F Unit := do
  let s ← get
  let name := e.modelName requestId
  modify fun s => { s with
    boundRequests := s.boundRequests.set requestId replicaIdx
    requestIdToLoraName :=
      s.requestIdToLoraName.set requestId (if s.isLora name then some name else none) }
  if (s.tokens requestId).generatedLength = 0 then
    onReplica replicaIdx fun q => { q with ceReqs := q.ceReqs.set requestId () }
  else
    onReplica replicaIdx fun q => { q with tgReqs := q.tgReqs.set requestId () }

/-- The number of tokens that a request will encode on each replica. -/
def postCacheWeights (requestId : R) (s : TextBatchConstructor n R N M L W T F) : Fin (n + 1) → ℤ :=
  let tokens := s.tokens requestId
  match e.services.prefixCacheHitCounts requestId tokens s.world with
  | none => fun _ => tokens.activeLength
  | some hits => fun i => max 1 (tokens.activeLength - e.services.pageSize * hits i)

def dpCeBalanceEnabled : Bool :=
  ((0 : ℤ) : F) ≤ e.schedulerConfig.dpCeBalanceTimeoutMs && 1 < n + 1

def admitRequest (requestId : R) (replicaIdx : Option (Fin (n + 1))) :
    BatchM n R N M L W T F Unit := do
  let s ← get
  if dpCeBalanceEnabled e ∧ replicaIdx = none ∧ (s.tokens requestId).generatedLength = 0 then
    modify fun s => { s with
      cePending := s.cePending.set requestId (postCacheWeights e requestId s)
      ceArrival := s.ceArrival.set requestId (e.services.now s.world) }
  else
    bindRequest e requestId (replicaIdx.getD (getNextReplicaIdx none s))

def failGrammarRequest (requestId : R) (error : String) : BatchM n R N M L W T F Unit := do
  onWorld (e.services.releasePipeline requestId)
  modify fun s => { s with grammarFailed := s.grammarFailed ++ [(requestId, error)] }

/-- The matcher is installed and the request admitted, or failed. -/
def installGrammar (requestId : R) (replicaIdx : Option (Fin (n + 1))) :
    BatchM n R N M L W T F Unit := do
  let (error, world) := e.services.installReady requestId (← get).world
  onWorld fun _ => world
  match error with
  | none => admitRequest e requestId replicaIdx
  | some error => failGrammarRequest e requestId error

def enqueueNewRequest (requestId : R) (replicaIdx : Option (Fin (n + 1))) :
    BatchM n R N M L W T F Unit := do
  if e.services.hasGrammarGate ∧ ((← get).tokens requestId).generatedLength = 0 then
    onWorld (e.services.submit requestId)
    if e.services.isReady requestId (← get).world then
      installGrammar e requestId replicaIdx
    else
      modify fun s => { s with grammarPending := s.grammarPending.set requestId replicaIdx }
  else
    admitRequest e requestId replicaIdx

def promoteGrammarReadyRequests : BatchM n R N M L W T F Unit := do
  let s ← get
  if e.services.hasGrammarGate then
    let ready := s.grammarPending.entries.filter fun p => e.services.isReady p.1 s.world
    ready.forM fun (requestId, replicaIdx) => do
      modify fun s => { s with grammarPending := s.grammarPending.erase requestId }
      installGrammar e requestId replicaIdx

def takeGrammarFailed : BatchM n R N M L W T F (List (R × String)) := do
  let failed := (← get).grammarFailed
  modify fun s => { s with grammarFailed := [] }
  return failed

/-! ### Requests that leave -/

/-- The adapter of a released request is protected no longer, unless another request uses it. -/
def releaseLora (requestId : R) (replicaIdx : Fin (n + 1)) : BatchM n R N M L W T F Unit := do
  let loraName := (← get).requestIdToLoraName.get? requestId
  modify fun s => { s with requestIdToLoraName := s.requestIdToLoraName.erase requestId }
  match loraName with
  | some (some name) =>
    if some name ∉ (← get).requestIdToLoraName.values then
      onReplica replicaIdx fun q => { q with activeLoras := q.activeLoras.erase name }
  | _ => pure ()

def releaseRequest (requestId : R) : BatchM n R N M L W T F Unit := do
  let s ← get
  if !s.contains requestId then
    throw (.valueError s!"Request {requestId} not found in any replica.")
  if requestId ∈ s.grammarPending then
    modify fun s => { s with grammarPending := s.grammarPending.erase requestId }
    onWorld (e.services.releaseGrammar requestId)
    onWorld (e.services.releasePipeline requestId)
  else if requestId ∈ s.cePending then
    modify fun s => { s with
      cePending := s.cePending.erase requestId
      ceArrival := s.ceArrival.erase requestId }
    onWorld (e.services.releasePipeline requestId)
  else
    modify fun s => { s with
      ceArrival := s.ceArrival.erase requestId
      onloadingReqs := s.onloadingReqs.erase requestId }
    match s.boundRequests.get? requestId with
    | none => throw .keyError
    | some replicaIdx =>
      onReplica replicaIdx fun q =>
        if requestId ∈ q.ceReqs then { q with ceReqs := q.ceReqs.erase requestId }
        else if requestId ∈ q.tgReqs then { q with tgReqs := q.tgReqs.erase requestId }
        else { q with deferredLoraRequests := q.deferredLoraRequests.erase requestId }
      releaseLora requestId replicaIdx
      if e.services.contains requestId (← get).world then
        onWorld (e.services.release requestId)
      onWorld (e.services.releasePipeline requestId)
      if e.services.hasGrammarGate then
        onWorld (e.services.releaseGrammar requestId)
      modify fun s => { s with boundRequests := s.boundRequests.erase requestId }

def returnToRequestQueue (requestId : R) (replicaIdx : Fin (n + 1)) :
    BatchM n R N M L W T F Unit := do
  if e.services.contains requestId (← get).world then
    onWorld (e.services.release requestId)
  onWorld (e.services.releasePipeline requestId)
  onContext requestId GenerationContext.reset
  onReplica replicaIdx fun q => { q with
    tgReqs := q.tgReqs.erase requestId
    ceReqs := (q.ceReqs.set requestId ()).moveToFront requestId }

/-- A preemption is counted for the log as well, which is left out. -/
def preemptRequest (requestId : R) (replicaIdx : Fin (n + 1)) : BatchM n R N M L W T F Unit :=
  returnToRequestQueue e requestId replicaIdx

/-! ### Adapters -/

def addActiveLora (requestId : R) (replicaIdx : Fin (n + 1)) : BatchM n R N M L W T F Unit := do
  let name := e.modelName requestId
  match (← get).loraManager with
  | none => pure ()
  | some manager =>
    if manager.isLora name then
      let _ ← focus (fun _ => manager) (fun m s => { s with loraManager := some m })
        (LoRAManager.activateAdapter name)
      onReplica replicaIdx fun q => { q with activeLoras := insert name q.activeLoras }

def updateDeferredLoraRequests : BatchM n R N M L W T F Unit :=
  onReplica replicaIdx fun q => { q with
    ceReqs := q.deferredLoraRequests.keys.foldl
      (fun ceReqs requestId => (ceReqs.set requestId ()).moveToFront requestId) q.ceReqs
    deferredLoraRequests := .empty }

/-- Whether the adapter of a request can be activated.  If not the request is deferred. -/
def canAllocateLora (requestId : R) (replicaIdx : Fin (n + 1)) :
    BatchM n R N M L W T F Bool := do
  let s ← get
  match s.loraManager with
  | none => return true
  | some manager =>
    if canAllocateLoraRequest (e.modelName requestId) (s.replicas replicaIdx).activeLoras
        manager then
      return true
    else
      onReplica replicaIdx fun q =>
        { q with deferredLoraRequests := q.deferredLoraRequests.set requestId () }
      return false

/-! ### Blocks and budgets -/

/-- `kv_cache.alloc`: no transfer is returned if there are not enough blocks. -/
def alloc (requestId : R) : BatchM n R N M L W T F (Option T) := do
  let s ← get
  let (transfer, skipped, world) := e.services.alloc requestId (s.tokens requestId) s.world
  onWorld fun _ => world
  if skipped ≠ 0 then
    onContext requestId (GenerationContext.onTokens (TokenArray.skipProcessing skipped))
  return transfer

def isAnythingInflight (s : TextBatchConstructor n R N M L W T F) : Bool :=
  s.onloadingReqs.values.any (·.1 = replicaIdx) ||
    e.services.pendingTransfersExist replicaIdx s.world ||
    match e.services.inflightKvTransferCount with
    | some count => 0 < count replicaIdx s.world
    | none => false

def isInsufficientBlocksFatal (noOtherWork : Bool)
    (s : TextBatchConstructor n R N M L W T F) : Bool :=
  noOtherWork && !isAnythingInflight e replicaIdx s

/-- The error after which the worker ends. -/
def insufficientBlocks (caller : String) (requestId : R) (replicaIdx : Fin (n + 1))
    (s : TextBatchConstructor n R N M L W T F) : PyError :=
  .insufficientBlocksError (s!"{caller}: InsufficientBlocksError is fatal on replica " ++
    s!"{replicaIdx.val} -- no other work and nothing in flight to free blocks. Request " ++
    s!"{requestId} has {(s.tokens requestId).len} tokens and already holds " ++
    s!"{e.services.numReqBlocks requestId s.world} blocks.")

def raiseIfFatal (caller : String) (requestId : R) (replicaIdx : Fin (n + 1))
    (noOtherWork : Bool) : BatchM n R N M L W T F Unit := do
  let s ← get
  if isInsufficientBlocksFatal e replicaIdx noOtherWork s then
    throw (insufficientBlocks e caller requestId replicaIdx s)

/-- The budgets are asked about a request; they may shorten its active window. -/
def statusAfterContext (budget : TokenBudgetCollection) (requestId : R)
    (requestType : RequestType) : BatchM n R N M L W T F BudgetStatus := do
  let (status, tokens) := budget.statusAfterContext ((← get).tokens requestId) requestType
  onContext requestId (modify fun ctx => { ctx with tokens := tokens })
  return status

variable (batch : ReplicaBatch R)

/-- The page-aligned length of the CE requests of a batch. -/
def ceLength (s : TextBatchConstructor n R N M L W T F) : ℕ :=
  (batch.ceRequests.map fun requestId =>
    TotalContextTokenBudget.alignUp (s.tokens requestId).len e.services.pageSize).sum

/-- A request joins the batch. -/
def addToBatch (requestId : R) (requestType : RequestType)
    (s : TextBatchConstructor n R N M L W T F) : ReplicaBatch R :=
  { batch with
    batch := batch.batch.set requestId requestType
    tokenBudget := batch.tokenBudget.addToBudget (s.tokens requestId) requestType }

/-! ### Context encoding -/

/-- How an iteration of the loop ends. -/
inductive Signal where
  | next
  | leave
  | exit
  deriving DecidableEq, Repr

/-- A request with its blocks is offered to the budgets. -/
def offerCe (requestId : R) :
    BatchM n R N M L W T F (Signal × ReplicaBatch R) := do
  let s ← get
  let batch := { batch with
    offered := batch.offered ++
      [⟨s.tokens requestId, batch.tokenBudget, ceLength e batch s⟩] }
  match ← statusAfterContext batch.tokenBudget requestId .ce with
  | .exhausted =>
    returnToRequestQueue e requestId replicaIdx
    return (.exit, batch)
  | .reached =>
    addActiveLora e requestId replicaIdx
    return (.leave, addToBatch batch requestId .ce (← get))
  | .available =>
    let batch := addToBatch batch requestId .ce (← get)
    addActiveLora e requestId replicaIdx
    return (.next, batch)

/-- A request gets its blocks.  Without them it goes back to the queue, and while they are being
loaded it is kept aside. -/
def serveCe (requestId : R) :
    BatchM n R N M L W T F (Signal × ReplicaBatch R) := do
  match ← alloc e requestId with
  | none =>
    raiseIfFatal e "_add_ce_requests" requestId replicaIdx
      (((← get).replicas replicaIdx).tgReqs.length = 0 ∧ batch.length = 0)
    returnToRequestQueue e requestId replicaIdx
    return (.leave, batch)
  | some transfer =>
    if e.services.isComplete transfer (← get).world then
      offerCe e replicaIdx batch requestId
    else
      modify fun s => { s with
        onloadingReqs := s.onloadingReqs.set requestId (replicaIdx, transfer) }
      return (.next, batch)

/-- One iteration of the loop of `_add_ce_requests`. -/
def ceStep :
    BatchM n R N M L W T F (Signal × ReplicaBatch R) := do
  match ((← get).replicas replicaIdx).ceReqs.popFirst with
  | none => return (.leave, batch)
  | some ((requestId, _), rest) =>
    onReplica replicaIdx fun q => { q with ceReqs := rest }
    if ← canAllocateLora e requestId replicaIdx then
      match batch.tokenBudget.remaining with
      | .error err => throw err
      | .ok remaining =>
        if remaining ≤ 0 then
          returnToRequestQueue e requestId replicaIdx
          return (.exit, batch)
        else
          onWorld fun w =>
            if e.services.contains requestId w then w else e.services.claim requestId replicaIdx w
          serveCe e replicaIdx batch requestId
    else
      return (.next, batch)

/-- The loop of `_add_ce_requests`.  Each iteration takes a request from the queue. -/
def ceLoop (replicaIdx : Fin (n + 1)) (startingTgReqsCount : ℕ) :
    ℕ → ReplicaBatch R → BatchM n R N M L W T F (Signal × ReplicaBatch R)
  | 0, batch => return (.leave, batch)
  | fuel + 1, batch => do
    let q := (← get).replicas replicaIdx
    if batch.length < e.schedulerConfig.maxBatchSize ∧
        (batch.length : ℤ) + q.tgReqs.length - startingTgReqsCount <
          e.schedulerConfig.maxBatchSize ∧
        0 < q.ceReqs.length then
      match ← ceStep e replicaIdx batch with
      | (.next, batch) => ceLoop replicaIdx startingTgReqsCount fuel batch
      | result => return result
    else
      return (.leave, batch)

def addCeRequests :
    BatchM n R N M L W T F (ReplicaBatch R) := do
  let s ← get
  if replicaIdx ∈ s.ceDeferredReplicas then
    return batch
  else
    let (signal, batch) ←
      ceLoop e replicaIdx batch.length (s.replicas replicaIdx).ceReqs.length batch
    if signal ≠ .exit then
      updateDeferredLoraRequests replicaIdx
    return batch

/-! ### Token generation -/

/-- The loop around `kv_cache.alloc`: the last candidate is preempted until there are blocks.  It
returns the candidates that are left, unless there is none to preempt.  The number is that of the
candidates. -/
def tgAlloc (replicaIdx : Fin (n + 1)) (noOtherWork : Bool) (requestId : R) :
    ℕ → List R → BatchM n R N M L W T F (Option (List R))
  | 0, candidateIds => do
    match ← alloc e requestId with
    | some _ => return some candidateIds
    | none =>
      raiseIfFatal e "_add_tg_requests" requestId replicaIdx noOtherWork
      return none
  | fuel + 1, candidateIds => do
    match ← alloc e requestId with
    | some _ => return some candidateIds
    | none =>
      match candidateIds.getLast? with
      | none =>
        raiseIfFatal e "_add_tg_requests" requestId replicaIdx noOtherWork
        return none
      | some oldestId =>
        onReplica replicaIdx fun q => { q with tgReqs := q.tgReqs.erase oldestId }
        preemptRequest e oldestId replicaIdx
        tgAlloc replicaIdx noOtherWork requestId fuel candidateIds.dropLast

/-- The loop of `_add_tg_requests`. -/
def tgLoop (replicaIdx : Fin (n + 1)) :
    ℕ → List R → ReplicaBatch R → BatchM n R N M L W T F (ReplicaBatch R)
  | fuel + 1, candidateId :: candidateIds, batch => do
    if batch.length < e.schedulerConfig.maxBatchSize then
      let s ← get
      if candidateId ∉ (s.replicas replicaIdx).tgReqs then
        throw .keyError
      let name := e.modelName candidateId
      if s.isLora name ∧ !s.isActiveLora name then
        preemptRequest e candidateId replicaIdx
        tgLoop replicaIdx fuel candidateIds batch
      else
        let status ← statusAfterContext batch.tokenBudget candidateId .tg
        if status = .exhausted then
          return batch
        else
          match ← tgAlloc e replicaIdx (batch.length = 0) candidateId candidateIds.length
              candidateIds with
          | none => return batch
          | some candidateIds =>
            let batch := addToBatch batch candidateId .tg (← get)
            if status = .reached then
              return batch
            else
              tgLoop replicaIdx fuel candidateIds batch
    else
      return batch
  | _, _, batch => return batch

def addTgRequests :
    BatchM n R N M L W T F (ReplicaBatch R) := do
  let candidateIds := ((← get).replicas replicaIdx).tgReqs.keys
  tgLoop e replicaIdx candidateIds.length candidateIds batch

/-! ### The plan of a step across replicas -/

/-- Whether the deadline of a request has passed.  A request without a time of arrival has none. -/
def expired (requestId : R) : Bool :=
  match s.ceArrival.get? requestId with
  | none => true
  | some arrival =>
    e.schedulerConfig.dpCeBalanceTimeoutMs / ((1000 : ℤ) : F) ≤ e.services.now s.world - arrival

/-- The tokens in the CE queue of a replica. -/
def ceTokens (i : Fin (n + 1)) : ℤ :=
  ((s.replicas i).ceReqs.keys.map fun requestId => (s.tokens requestId).activeLength).sum

/-- A replica can be deferred if it has TG work and no CE request whose deadline has passed. -/
def canDefer (i : Fin (n + 1)) : Bool :=
  0 < (s.replicas i).tgReqs.length && !(s.replicas i).ceReqs.keys.any (expired e s)

/-- The loads of the replicas: what must run, all of the queue, and what runs in this step. -/
structure CeLoads (n : ℕ) where
  floor : Fin (n + 1) → ℤ
  totalLoad : Fin (n + 1) → ℤ
  stepLoad : Fin (n + 1) → ℤ

/-- The tokens that run no matter what. -/
def initialFloor (i : Fin (n + 1)) : ℤ :=
  if ceTokens s i = 0 ∨ canDefer e s i then 0
  else min (ceTokens s i) e.schedulerConfig.targetTokensPerBatchCe

/-- The queues that may wait, with their tokens. -/
def deferrableTails : List (ℤ × Fin (n + 1)) :=
  ((List.finRange (n + 1)).filter fun i => ceTokens s i ≠ 0 ∧ canDefer e s i).map fun i =>
    (min (ceTokens s i) e.schedulerConfig.targetTokensPerBatchCe, i)

/-- `argmin(total_load + weight)`. -/
def leastLoaded (loads : CeLoads n) (weights : Fin (n + 1) → ℤ) : Fin (n + 1) :=
  argmin fun i => loads.totalLoad i + weights i

/-- The loads after a request that must run was bound. -/
def addExpired (loads : CeLoads n) (weights : Fin (n + 1) → ℤ) : CeLoads n :=
  let i := leastLoaded loads weights
  let step := min (loads.stepLoad i + weights i) (e.schedulerConfig.targetTokensPerBatchCe : ℤ)
  ⟨Function.update loads.floor i step,
    Function.update loads.totalLoad i (loads.totalLoad i + weights i),
    Function.update loads.stepLoad i step⟩

/-- A pooled request whose deadline has passed is bound to the replica with the least load. -/
def bindExpired (loads : CeLoads n) (requestId : R) : BatchM n R N M L W T F (CeLoads n) := do
  match (← get).cePending.get? requestId with
  | none => throw .keyError
  | some weights =>
    modify fun s => { s with cePending := s.cePending.erase requestId }
    bindRequest e requestId (leastLoaded loads weights)
    return addExpired e loads weights

def maxLoad (loads : Fin (n + 1) → ℤ) : ℤ :=
  ((List.finRange (n + 1)).map loads).foldl max (loads 0)

def occupancy (loads : Fin (n + 1) → ℤ) : F :=
  if maxLoad loads = 0 then ((1 : ℤ) : F)
  else (((List.finRange (n + 1)).map loads).sum : F) / (((n + 1 : ℕ) : ℤ) : F) / (maxLoad loads : F)

/-- Whether more work is accepted: the step is empty, or becomes more balanced. -/
def improves (F : Type) [IntCast F] [Div F] [LT F] [DecidableLT F]
    (stepLoad trial : Fin (n + 1) → ℤ) : Bool :=
  maxLoad stepLoad = 0 || decide ((occupancy stepLoad : F) < occupancy trial)

/-- A queue that may wait is run if that is an improvement. -/
def fillTail (acc : (Fin (n + 1) → ℤ) × Finset (Fin (n + 1))) (tail : ℤ × Fin (n + 1)) :
    (Fin (n + 1) → ℤ) × Finset (Fin (n + 1)) :=
  let trial := Function.update acc.1 tail.2
    (min (acc.1 tail.2 + tail.1) e.schedulerConfig.targetTokensPerBatchCe)
  if improves F acc.1 trial then (trial, acc.2.erase tail.2) else acc

/-- The larger queues first. -/
def sortTails (tails : List (ℤ × Fin (n + 1))) : List (ℤ × Fin (n + 1)) :=
  tails.insertionSort fun a b => b.1 < a.1 ∨ (b.1 = a.1 ∧ b.2 ≤ a.2)

def fillTails (tails : List (ℤ × Fin (n + 1))) (stepLoad : Fin (n + 1) → ℤ) :
    (Fin (n + 1) → ℤ) × Finset (Fin (n + 1)) :=
  (sortTails tails).foldl (fillTail e) (stepLoad, (tails.map Prod.snd).toFinset)

/-- The plan for the pool: the loads and the requests to bind. -/
structure PoolPlan (n : ℕ) (R : Type) where
  stepLoad : Fin (n + 1) → ℤ
  totalLoad : Fin (n + 1) → ℤ
  poolBinds : List (R × Fin (n + 1))

/-- A pooled request is planned for a replica that runs CE work, if that is an improvement. -/
def fillPoolRequest (deferred : Finset (Fin (n + 1))) (plan : PoolPlan n R)
    (pending : R × (Fin (n + 1) → ℤ)) : PoolPlan n R :=
  let eligible := (List.finRange (n + 1)).filter fun i =>
    i ∉ deferred ∧ plan.stepLoad i < e.schedulerConfig.targetTokensPerBatchCe
  match argminIn (fun i => plan.totalLoad i + pending.2 i) eligible with
  | none => plan
  | some i =>
    let trial := Function.update plan.stepLoad i
      (min (plan.stepLoad i + pending.2 i) e.schedulerConfig.targetTokensPerBatchCe)
    if improves F plan.stepLoad trial then
      ⟨trial, Function.update plan.totalLoad i (plan.totalLoad i + pending.2 i),
        plan.poolBinds ++ [(pending.1, i)]⟩
    else
      plan

/-- `min(weights)`. -/
def minWeight (weights : Fin (n + 1) → ℤ) : ℤ :=
  ((List.finRange (n + 1)).map weights).foldl min (weights 0)

/-- The larger requests first; those of the same size in the order of their arrival. -/
def sortPool (pool : List (R × (Fin (n + 1) → ℤ))) : List (R × (Fin (n + 1) → ℤ)) :=
  pool.insertionSort fun a b => minWeight b.2 ≤ minWeight a.2

def fillPool (deferred : Finset (Fin (n + 1))) (pool : List (R × (Fin (n + 1) → ℤ)))
    (loads : CeLoads n) (stepLoad : Fin (n + 1) → ℤ) : PoolPlan n R :=
  (sortPool pool).foldl (fillPoolRequest e deferred) ⟨stepLoad, loads.totalLoad, []⟩

/-- The level to which the chunks of a step are reduced. -/
def balanceLevel (floor stepLoad : Fin (n + 1) → ℤ) : ℤ :=
  match (((List.finRange (n + 1)).map stepLoad).filter (0 < ·)).min? with
  | none => 0
  | some lightest => max (maxLoad floor) lightest

def canReduceChunkSize (floor stepLoad : Fin (n + 1) → ℤ) : Bool :=
  e.schedulerConfig.dpCeBalanceEnableDynamicChunkSize &&
    1 < (((List.finRange (n + 1)).map stepLoad).filter (0 < ·)).length &&
    (e.schedulerConfig.targetTokensPerBatchCe : ℤ) / 2 ≤ balanceLevel floor stepLoad

/-- The quotas of a step with reduced chunks. -/
def quotas (floor stepLoad : Fin (n + 1) → ℤ) (i : Fin (n + 1)) : ℤ :=
  if 0 < stepLoad i then max (floor i) (min (stepLoad i) (balanceLevel floor stepLoad))
  else e.schedulerConfig.targetTokensPerBatchCe

/-- The planned requests are bound. -/
def bindPool (poolBinds : List (R × Fin (n + 1))) : BatchM n R N M L W T F Unit :=
  poolBinds.forM fun (requestId, i) => do
    modify fun s => { s with cePending := s.cePending.erase requestId }
    bindRequest e requestId i

/-- The plan is carried out, or everything that may wait does. -/
def commitStep (tails : List (ℤ × Fin (n + 1))) (loads : CeLoads n) : BatchM n R N M L W T F Unit := do
  let s ← get
  let (stepLoad, deferred) := fillTails e tails loads.stepLoad
  let plan := fillPool e deferred s.cePending.entries loads stepLoad
  let floorExists : Bool := ∃ i, loads.floor i ≠ 0
  let fleetIdle : Bool := !floorExists ∧ ∀ i, (s.replicas i).tgReqs.length = 0
  let balanced : Bool := e.schedulerConfig.dpCeBalanceThreshold ≤ (occupancy plan.stepLoad : F)
  let below : Bool := (occupancy plan.stepLoad : F) < e.schedulerConfig.dpCeBalanceThreshold
  let reduced := canReduceChunkSize e loads.floor plan.stepLoad
  if floorExists || fleetIdle || balanced || reduced then
    bindPool e plan.poolBinds
    modify fun s => { s with
      ceDeferredReplicas := deferred
      ceStepQuota :=
        if below && reduced && !fleetIdle then some (quotas e loads.floor plan.stepLoad) else none }
  else
    modify fun s => { s with ceDeferredReplicas := (tails.map Prod.snd).toFinset }

def planCeStep : BatchM n R N M L W T F Unit := do
  modify fun s => { s with ceDeferredReplicas := ∅, ceStepQuota := none }
  let s ← get
  if dpCeBalanceEnabled e ∧
      (0 < s.cePending.length ∨ ∃ i, 0 < (s.replicas i).ceReqs.length) then
    let tails := deferrableTails e s
    let loads ← (s.cePending.keys.filter (expired e s)).foldlM (bindExpired e)
      ⟨initialFloor e s, ceTokens s, initialFloor e s⟩
    commitStep e tails loads

/-! ### Batches -/

def identifyPriority : Option RequestType :=
  let q := s.replicas replicaIdx
  if replicaIdx ∈ s.ceDeferredReplicas then some .tg
  else if q.ceReqs.length = 0 ∧ q.tgReqs.length = 0 then none
  else if q.ceReqs.length = 0 then some .tg
  else if q.tgReqs.length = 0 then some .ce
  else if e.tgPriorityKvPercentage < e.services.usedPct replicaIdx s.world then some .tg
  else if e.schedulerConfig.enableInFlightBatching then some .tg
  else some .ce

def readmitCompletedOnloads : BatchM n R N M L W T F Unit := do
  let s ← get
  let completed := s.onloadingReqs.entries.filter fun p => e.services.isComplete p.2.2 s.world
  completed.forM fun (requestId, replicaIdx, _) => do
    modify fun s => { s with onloadingReqs := s.onloadingReqs.erase requestId }
    onReplica replicaIdx fun q =>
      { q with ceReqs := (q.ceReqs.set requestId ()).moveToFront requestId }

/-- The number of tokens to which the plan has reduced the chunks of a replica. -/
def ceCapacity : Option ℤ :=
  match s.ceStepQuota with
  | none => none
  | some quota =>
    if 0 < quota replicaIdx ∧ !e.schedulerConfig.enableInFlightBatching then some (quota replicaIdx)
    else none

def constructReplicaBatch (priorityOverride : Option RequestType) (replicaIdx : Fin (n + 1)) :
    BatchM n R N M L W T F (ReplicaBatch R) := do
  let s ← get
  let batch : ReplicaBatch R := ⟨.empty, createNewTokenBudget e (ceCapacity e s replicaIdx), []⟩
  match priorityOverride.or (identifyPriority e s replicaIdx) with
  | some .ce =>
    let batch ← addCeRequests e replicaIdx batch
    if batch.length = 0 ∧ priorityOverride = none then
      addTgRequests e replicaIdx batch
    else
      return batch
  | some .tg =>
    let batch ← addTgRequests e replicaIdx batch
    if e.schedulerConfig.enableInFlightBatching ∧ 0 < batch.length ∧ priorityOverride = none then
      addCeRequests e replicaIdx batch
    else
      return batch
  | _ => return batch

/-- The priority that the strategy imposes on all replicas. -/
def priorityOverride : Option RequestType :=
  let priorities := (List.finRange (n + 1)).map (identifyPriority e s)
  match e.batchSchedulingStrategy with
  | .decodeFirst => if some .tg ∈ priorities then some .tg else none
  | .prefillFirst => if some .ce ∈ priorities then some .ce else none
  | .balanced =>
    if priorities.count (some .tg) < priorities.count (some .ce) then some .ce else some .tg
  | .perReplica => none

/-- The batches of the replicas. -/
def constructBatch : BatchM n R N M L W T F (Fin (n + 1) → ReplicaBatch R) := do
  readmitCompletedOnloads e
  promoteGrammarReadyRequests e
  planCeStep e
  let override := priorityOverride e (← get)
  (List.finRange (n + 1)).foldlM
    (fun batches i => return Function.update batches i (← constructReplicaBatch e override i))
    fun _ => ⟨.empty, createNewTokenBudget e none, []⟩

/-- The batch of a replica has run. -/
def advanceReplica (batches : Fin (n + 1) → List R) (i : Fin (n + 1)) :
    BatchM n R N M L W T F Unit := do
  (batches i).forM fun requestId => do
    if (← get).contains requestId then
      onReplica i fun q => { q with tgReqs := q.tgReqs.set requestId () }
  match (batches i).getLast? with
  | none => pure ()
  | some lastRequest =>
    let s ← get
    if s.contains lastRequest ∧ (s.tokens lastRequest).generatedLength = 0 then
      onReplica i fun q => { q with
        tgReqs := q.tgReqs.erase lastRequest
        ceReqs := (q.ceReqs.set lastRequest ()).moveToFront lastRequest }

def advanceRequests (batches : Fin (n + 1) → List R) : BatchM n R N M L W T F Unit :=
  (List.finRange (n + 1)).forM (advanceReplica batches)

end Operations

end TextBatchConstructor
