/-
A request while its tokens are generated (`pipelines/context/context.py`,
`pipelines/context/eos_tracking.py`, `pipelines/context/status.py`).

With overlap scheduling a placeholder, `FUTURE_TOKEN`, is appended before the token is known; the
oldest placeholder is overwritten when its token has been sampled.  `to_generation_output` streams
the tokens that are realized.

* `EOSTracker.isEosFromTokens` — whether the generated tokens end the sequence;
* `GenerationContext` — the part of a `TextContext` that takes part in this;
* `advanceTokenBuffer`, `updateWithFutureToken`, `realizeFutureToken`, `reset`,
  `toGenerationOutput` — its operations.

The grammar matcher is left out: it reads the tokens and does not change the buffer or the status.
-/
import MojoMac.TokenArray

open StateSpec PySlice

/-- Where a generation is. -/
inductive GenerationStatus where
  | active
  | endOfSequence
  | maximumLength
  | cancelled
  deriving DecidableEq, Repr

namespace GenerationStatus

def isDone (s : GenerationStatus) : Bool := s ≠ .active

end GenerationStatus

/-- The tokens, and the sequences of tokens, that end a sequence. -/
structure EOSTracker where
  eosTokenIds : List ℤ
  eosSequences : List (List ℤ)

namespace EOSTracker

/-- One turn of the loop over `eos_sequences`. -/
def endsWith (generatedTokens eos : List ℤ) : Bool :=
  eos.length ≤ generatedTokens.length &&
    generatedTokens.drop (generatedTokens.length - eos.length) == eos

def isEosFromTokens (t : EOSTracker) (generatedTokens : List ℤ) : Except PyError Bool :=
  match generatedTokens.getLast? with
  | none => throw (.valueError "generated_tokens must be non-empty")
  | some token => return t.eosTokenIds.contains token || t.eosSequences.any (endsWith generatedTokens)

end EOSTracker

/-- The placeholder of a token that is not known yet. -/
def futureToken : ℤ := -999

/-- The fields of a `TextContext` that the generation of tokens reads and writes. -/
structure GenerationContext (R L : Type) where
  requestId : R
  tokens : TokenArray
  maxLength : ℤ
  eosTracker : EOSTracker
  vocabSize : Option ℤ
  status : GenerationStatus
  logProbabilitiesData : ℤ → Option L
  isInitialPrompt : Bool
  cachedPrefixLength : Option ℤ
  pendingFutureCount : ℕ

/-- What is returned to the user. -/
structure TextGenerationOutput (R L : Type) where
  requestId : R
  tokens : List ℤ
  logProbabilities : Option (List L)
  finalStatus : GenerationStatus
  numCachedTokens : Option ℤ

namespace GenerationContext

variable {R L : Type} (ctx : GenerationContext R L)

/-- A new context around a token buffer. -/
def init (requestId : R) (tokens : TokenArray) (maxLength : ℤ) (eosTracker : EOSTracker)
    (vocabSize : Option ℤ) : GenerationContext R L :=
  ⟨requestId, tokens, maxLength, eosTracker, vocabSize, .active, fun _ => none, true, none, 0⟩

/-- An operation on the token buffer. -/
def onTokens {α : Type} (m : PyM TokenArray α) : PyM (GenerationContext R L) α :=
  focus (·.tokens) (fun b ctx => { ctx with tokens := b }) m

def setStatus (status : GenerationStatus) (ctx : GenerationContext R L) : GenerationContext R L :=
  { ctx with status := status }

/-- `self._log_probabilities_data[position] = log_probabilities`, if there are any. -/
def storeLogProbabilities (position : ℤ) (logProbabilities : Option L)
    (ctx : GenerationContext R L) : GenerationContext R L :=
  match logProbabilities with
  | none => ctx
  | some p =>
    { ctx with logProbabilitiesData := Function.update ctx.logProbabilitiesData position (some p) }

/-- `is_eos_from_tokens` inside an operation. -/
def isEos (tokens : List ℤ) : PyM (GenerationContext R L) Bool := do
  match (← get).eosTracker.isEosFromTokens tokens with
  | .ok eos => return eos
  | .error e => throw e

/-- The update of the status after a token was appended. -/
def updateStatus (newToken : ℤ) : PyM (GenerationContext R L) Unit := do
  let ctx ← get
  let eos ← if newToken ≠ futureToken then isEos ctx.tokens.generated else pure false
  if eos then
    modify (setStatus .endOfSequence)
  else if ctx.maxLength ≤ ctx.tokens.currentPosition then
    modify (setStatus .maximumLength)

/-- `memory` is what memory contains that the buffer may allocate. -/
def advanceTokenBuffer (memory : ℕ → ℤ) (newToken : ℤ) (logProbabilities : Option L) :
    PyM (GenerationContext R L) Unit := do
  let ctx ← get
  if ctx.tokens.activelyChunked then
    onTokens TokenArray.advanceChunk
  else
    modify (storeLogProbabilities ctx.tokens.currentPosition logProbabilities)
    if 0 < ctx.pendingFutureCount ∧ newToken ≠ futureToken then
      throw (.valueError "Cannot append a token after a future token.")
    onTokens (TokenArray.advanceWithToken memory newToken)
    updateStatus newToken
    modify fun ctx => { ctx with isInitialPrompt := false }

def update (memory : ℕ → ℤ) (newToken : ℤ) (logProbabilities : Option L) :
    PyM (GenerationContext R L) Unit :=
  advanceTokenBuffer memory newToken logProbabilities

def updateWithFutureToken (memory : ℕ → ℤ) (maxPendingFutures : ℤ) :
    PyM (GenerationContext R L) Unit := do
  let ctx ← get
  if maxPendingFutures ≤ ctx.pendingFutureCount then
    throw (.valueError "Cannot have multiple future tokens.")
  update memory futureToken none
  if !ctx.tokens.activelyChunked then
    modify fun ctx => { ctx with pendingFutureCount := ctx.pendingFutureCount + 1 }

/-- The generated tokens without the placeholders at their end. -/
def realizedTokens : List ℤ :=
  if 0 < ctx.pendingFutureCount then
    slice ctx.tokens.generated 0 (-ctx.pendingFutureCount)
  else
    ctx.tokens.generated

/-- The check for the end of the sequence once a token is realized. -/
def checkRealized : PyM (GenerationContext R L) Unit := do
  let realized := (← get).realizedTokens
  let eos ← if 0 < realized.length then isEos realized else pure false
  if eos then
    modify (setStatus .endOfSequence)

def realizeFutureToken (newToken : ℤ) (logProbabilities : Option L) :
    PyM (GenerationContext R L) Unit := do
  let ctx ← get
  if ctx.tokens.generatedLength = 0 then
    throw (.valueError "Cannot realize a future token when there are no generated tokens.")
  let count := ctx.pendingFutureCount
  if count = 0 then
    throw (.valueError "Attempted to realize a non-future token. Found token: ")
  modify (storeLogProbabilities (ctx.tokens.currentPosition - count) logProbabilities)
  onTokens (TokenArray.overwriteTokenAtOffsetFromEnd count newToken)
  modify fun ctx => { ctx with pendingFutureCount := count - 1 }
  checkRealized

def reset : PyM (GenerationContext R L) Unit := do
  onTokens (TokenArray.resetAsNewPrompt (← get).pendingFutureCount)
  modify fun ctx => { ctx with pendingFutureCount := 0, isInitialPrompt := true }

/-- A maximal length that only placeholders reach is not reported. -/
def reportedStatus : GenerationStatus :=
  if ctx.status = .maximumLength ∧ 0 < ctx.pendingFutureCount ∧
      (ctx.tokens.len : ℤ) - ctx.pendingFutureCount < ctx.maxLength then
    .active
  else
    ctx.status

/-- A token id that may be returned. -/
def ValidToken (tokenId : ℤ) : Prop :=
  0 ≤ tokenId ∧ ∀ size ∈ ctx.vocabSize, tokenId < size

variable [ToString R]

/-- One turn of the loop that checks the tokens to be returned. -/
def checkTokenId (tokenId : ℤ) : PyM (GenerationContext R L) Unit := do
  let ctx ← get
  if tokenId < 0 then
    throw (.runtimeError
      s!"Generated negative token_id={tokenId} for request {ctx.requestId}")
  match ctx.vocabSize with
  | none => return ()
  | some size =>
    if size ≤ tokenId then
      throw (.runtimeError (s!"Generated out-of-vocabulary token_id={tokenId} for request "
        ++ s!"{ctx.requestId} (valid range: [0, {size}))"))

/-- The tokens to be returned are taken from the buffer and checked. -/
def consumeTokens : PyM (GenerationContext R L) (List ℤ) := do
  let generatedTokens ←
    onTokens (TokenArray.consumeRecentlyGeneratedTokens (← get).pendingFutureCount)
  if futureToken ∈ generatedTokens then
    throw (.valueError
      "Attempted to create generation output while future token is not yet realized.")
  generatedTokens.forM checkTokenId
  return generatedTokens

/-- One turn of the loop that takes the log probabilities of the tokens. -/
def popLogProbabilities (logProbabilities : Option (List L)) (tokenIdx : ℕ) :
    PyM (GenerationContext R L) (Option (List L)) := do
  match (← get).logProbabilitiesData tokenIdx with
  | none => return logProbabilities
  | some p =>
    modify fun ctx =>
      { ctx with logProbabilitiesData := Function.update ctx.logProbabilitiesData tokenIdx none }
    return some (logProbabilities.getD [] ++ [p])

/-- The positions in the buffer of the tokens to be returned. -/
def elementIds : List ℕ :=
  let start := ctx.tokens.completionRange.start
  let consumableEnd := max start (ctx.tokens.completionRange.stop - ctx.pendingFutureCount)
  List.range' start (consumableEnd - start)

def toGenerationOutput : PyM (GenerationContext R L) (TextGenerationOutput R L) := do
  let ctx ← get
  if !ctx.tokens.hasOutstandingGeneratedTokens then
    return ⟨ctx.requestId, [], none, ctx.reportedStatus, ctx.cachedPrefixLength⟩
  let generatedTokens ← if 0 < ctx.elementIds.length then consumeTokens else pure []
  let logProbabilities ← ctx.elementIds.foldlM popLogProbabilities none
  return ⟨ctx.requestId, generatedTokens, logProbabilities, ctx.reportedStatus,
    ctx.cachedPrefixLength⟩

end GenerationContext
