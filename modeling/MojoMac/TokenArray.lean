/-
The token buffer with its array and both of its windows (`pipelines/context/tokens.py`).

`TokenBuffer` has the valid tokens only, which is what the block managers read.  The array that
holds them may be longer, and `active` is a slice of the array, so the array is part of the state
here, with whatever stands behind the valid tokens.

* `TokenRange` — a window; its operations check the bounds;
* `TokenArray` — the buffer; the operations, with what each of them checks;
* `TokenArray.view` — the valid tokens and the processing window as a `TokenBuffer`.
-/
import MojoMac.PySlice
import MojoMac.StateSpec
import MojoMac.TokenBuffer

open StateSpec PySlice

/-- A range from `start` to `stop`. -/
structure TokenRange where
  start : ℕ
  stop : ℕ
  deriving DecidableEq, Repr

namespace TokenRange

def len (r : TokenRange) : ℕ := r.stop - r.start

def bumpStart (amount : ℤ) : PyM TokenRange Unit := do
  let r ← get
  let newStart := (r.start : ℤ) + amount
  if newStart < 0 then
    throw (.valueError s!"start ({r.start}) + amount ({amount}) must be >= 0")
  if (r.stop : ℤ) < newStart then
    throw (.valueError s!"start ({r.start}) + amount ({amount}) must be <= end ({r.stop})")
  modify fun r => { r with start := newStart.toNat }

def bumpEnd (amount : ℤ) : PyM TokenRange Unit := do
  let r ← get
  let newEnd := (r.stop : ℤ) + amount
  if newEnd < 0 then
    throw (.valueError s!"end ({r.stop}) + amount ({amount}) must be >= 0")
  if newEnd < r.start then
    throw (.valueError s!"end ({r.stop}) + amount ({amount}) must be >= start ({r.start})")
  modify fun r => { r with stop := newEnd.toNat }

def advance (r : TokenRange) : TokenRange := { r with start := r.stop }

end TokenRange

/-- The array, the ranges of the tokens to be processed and of those to be streamed, the offset of
the processing range, and the numbers of tokens in the prompt and in all. -/
structure TokenArray where
  array : List ℤ
  processingRange : TokenRange
  processingOffset : ℤ
  completionRange : TokenRange
  promptLength : ℕ
  currentLength : ℕ
  activelyChunked : Bool

namespace TokenArray

variable (b : TokenArray)

/-- The constructor. -/
def init (array : List ℤ) : Except PyError TokenArray :=
  if array.length = 0 then
    throw (.valueError "array must be non-empty: got length 0")
  else
    return ⟨array, ⟨0, array.length⟩, 0, ⟨array.length, array.length⟩, array.length, array.length,
      false⟩

/-- Every valid token. -/
def all : List ℤ := b.array.take b.currentLength

/-- The tokens produced after the prompt. -/
def generated : List ℤ := slice b.array b.promptLength b.currentLength

/-- The tokens for the next processing step. -/
def active : List ℤ :=
  slice b.array (b.processingRange.start + b.processingOffset) b.processingRange.stop

def len : ℕ := b.all.length

def processedLength : ℕ := b.processingRange.start

def generatedLength : ℤ := (b.currentLength : ℤ) - b.promptLength

def activeLength : ℤ := (b.processingRange.len : ℤ) - b.processingOffset

def currentPosition : ℤ := b.processedLength + b.activeLength

def hasOutstandingGeneratedTokens : Bool := 0 < b.completionRange.len

/-- An operation on the processing range. -/
def onProcessing {α : Type} (m : PyM TokenRange α) : PyM TokenArray α :=
  focus (·.processingRange) (fun r b => { b with processingRange := r }) m

/-- An operation on the completion range. -/
def onCompletion {α : Type} (m : PyM TokenRange α) : PyM TokenArray α :=
  focus (·.completionRange) (fun r b => { b with completionRange := r }) m

def applyProcessingOffset (value : ℤ) : PyM TokenArray Unit := do
  let b ← get
  let newStart := b.processingRange.start + value
  if newStart < 0 then
    throw (.valueError (s!"processing range start ({b.processingRange.start}) + processing offset "
      ++ s!"({value}) must be >= 0"))
  if b.processingRange.stop < newStart then
    throw (.valueError (s!"processing range start ({b.processingRange.start}) + processing offset "
      ++ s!"({value}) must be <= processing range end ({b.processingRange.stop})"))
  modify fun b => { b with processingOffset := value }

def rewindProcessing (n : ℤ) : PyM TokenArray Unit := do
  if n < 0 then
    throw (.valueError s!"n must be non-negative: got {n}")
  onProcessing (TokenRange.bumpStart (-n))

def skipProcessing (n : ℤ) : PyM TokenArray Unit := do
  let b ← get
  if n < 0 then
    throw (.valueError s!"n must be non-negative: got {n}")
  if b.activeLength ≤ n then
    throw (.valueError (s!"Cannot skip {n} tokens: would leave {b.activeLength - n} active tokens. "
      ++ s!"Must have at least 1 active token (current active_length={b.activeLength})"))
  onProcessing (TokenRange.bumpStart n)

def chunk (chunkSize : ℤ) : PyM TokenArray Unit := do
  let b ← get
  if chunkSize ≤ 0 ∨ b.activeLength ≤ chunkSize then
    throw (.valueError
      s!"chunk size must be between 1 and the current number of active tokens: got {chunkSize}")
  onProcessing (TokenRange.bumpEnd (chunkSize - b.activeLength))
  modify fun b => { b with activelyChunked := true }

/-- The offset goes back to zero. -/
def clearProcessingOffset : PyM TokenArray Unit := do
  if (← get).processingOffset ≠ 0 then
    applyProcessingOffset 0

def advanceChunk : PyM TokenArray Unit := do
  if !(← get).activelyChunked then
    throw (.valueError "Cannot advance chunk if not actively chunked.")
  clearProcessingOffset
  modify fun b => { b with
    processingRange := ⟨b.processingRange.stop, b.currentLength⟩, activelyChunked := false }

/-- The loop that doubles the size of the array until it is beyond `target`; `fuel` bounds its
turns. -/
def growSize (target : ℕ) : ℕ → ℕ → ℕ
  | 0, newSize => newSize
  | fuel + 1, newSize => if newSize ≤ target then growSize target fuel (newSize * 2) else newSize

/-- `np.copyto` of an array into one of `n` elements: a single element fills it. -/
def copyto (n : ℕ) (src : List ℤ) : PyM TokenArray (List ℤ) :=
  if src.length = n then
    return src
  else match src with
    | [x] => return List.replicate n x
    | _ => throw (.valueError
        s!"could not broadcast input array from shape ({src.length},) into shape ({n},)")

/-- A longer array when the array is full; `memory` is what new memory contains. -/
def expandCapacity (memory : ℕ → ℤ) : PyM TokenArray Unit := do
  let b ← get
  let target := b.currentLength
  if b.array.length ≤ target then
    let newSize := growSize target (target + 1) b.array.length
    let copied ← copyto target b.all
    modify fun b => { b with
      array := copied ++ (List.range (newSize - target)).map memory }

/-- `self.array[index] = token`. -/
def storeToken (index : ℕ) (token : ℤ) : PyM TokenArray Unit := do
  if (← get).array.length ≤ index then
    throw .indexError
  modify fun b => { b with array := b.array.set index token }

def advanceWithToken (memory : ℕ → ℤ) (token : ℤ) : PyM TokenArray Unit := do
  if (← get).activelyChunked then
    throw (.valueError "Cannot add a token while actively chunked.")
  modify fun b => { b with processingRange := b.processingRange.advance }
  onProcessing (TokenRange.bumpEnd 1)
  onCompletion (TokenRange.bumpEnd 1)
  expandCapacity memory
  storeToken (← get).currentLength token
  modify fun b => { b with currentLength := b.currentLength + 1 }
  clearProcessingOffset

def overwriteTokenAtOffsetFromEnd (offsetFromEnd token : ℤ) : PyM TokenArray Unit := do
  let b ← get
  if offsetFromEnd < 1 ∨ b.currentLength < offsetFromEnd then
    throw (.valueError (s!"offset_from_end ({offsetFromEnd}) must be between 1 and "
      ++ s!"the current length ({b.currentLength})"))
  storeToken (b.currentLength - offsetFromEnd).toNat token

def overwriteLastToken (token : ℤ) : PyM TokenArray Unit :=
  overwriteTokenAtOffsetFromEnd 1 token

def consumeRecentlyGeneratedTokens (numTrailingToExclude : ℤ) :
    PyM TokenArray (List ℤ) := do
  let b ← get
  if b.completionRange.start = b.completionRange.stop then
    throw (.valueError "No tokens have been generated yet.")
  if b.currentLength < b.completionRange.stop then
    throw (.valueError (s!"Internal error: completion range end ({b.completionRange.stop}) "
      ++ s!"exceeds current length ({b.currentLength})"))
  let consumeEnd := b.completionRange.stop - numTrailingToExclude
  if consumeEnd < b.completionRange.start then
    throw (.valueError (s!"Cannot exclude {numTrailingToExclude} trailing tokens: "
      ++ s!"only {b.completionRange.len} unconsumed tokens exist."))
  let generatedTokens := slice b.array b.completionRange.start consumeEnd
  onCompletion (TokenRange.bumpStart (consumeEnd - b.completionRange.start))
  return generatedTokens

/-- The deletion of trailing tokens in `reset_as_new_prompt`. -/
def deleteTrailing (numTrailingTokensToDelete : ℤ) : PyM TokenArray Unit := do
  let b ← get
  if numTrailingTokensToDelete ≠ 0 then
    if b.generatedLength < numTrailingTokensToDelete then
      throw (.valueError (s!"Cannot delete more trailing tokens ({numTrailingTokensToDelete}) "
        ++ s!"than there are generated tokens ({b.generatedLength})."))
    modify fun b => { b with
      currentLength := (b.currentLength - numTrailingTokensToDelete).toNat }

def resetAsNewPrompt (numTrailingTokensToDelete : ℤ) : PyM TokenArray Unit := do
  let b ← get
  if b.currentLength < b.processingRange.stop then
    throw (.valueError (s!"Internal error: processing range end ({b.processingRange.stop}) "
      ++ s!"exceeds current length ({b.currentLength})"))
  deleteTrailing numTrailingTokensToDelete
  modify fun b => { b with
    processingRange := ⟨0, b.currentLength⟩
    completionRange := ⟨b.currentLength, b.currentLength⟩
    promptLength := b.currentLength
    activelyChunked := false }

/-- The valid tokens and the processing window. -/
def view : TokenBuffer :=
  ⟨b.all, b.processingRange.start, b.processingRange.stop, b.processingOffset, b.activelyChunked⟩

end TokenArray
