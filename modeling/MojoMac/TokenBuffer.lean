/-
The token buffer and the context of a request (`pipelines/context/tokens.py`,
`pipelines/context/context.py`).

* `TokenBuffer` — the tokens and the window of those to be processed next;
* `TextContext` — a request as the block managers read it.

Of the buffer the completion window and of the context the fields of sampling, grammars and
scheduling are left out: nothing here reads them.
-/
import Mathlib

/-- The exceptions raised by the code. -/
inductive PyError where
  | valueError (msg : String)
  | assertionError
  | indexError
  | keyError
  | insufficientBlocksError (msg : String)
  | runtimeError (msg : String)
  deriving DecidableEq, Repr

/-- A method of an object with state `σ`; when it raises, its changes so far stay. -/
abbrev PyM (σ : Type) :=
  EStateM PyError σ

/-- The tokens, the processing range from `start` to `stop` and its offset. -/
structure TokenBuffer where
  all : List ℤ
  start : ℕ
  stop : ℕ
  offset : ℤ
  activelyChunked : Bool

namespace TokenBuffer

variable (b : TokenBuffer)

/-- The constructor from the tokens of a prompt. -/
def init (array : List ℤ) : Except PyError TokenBuffer :=
  if array.length = 0 then
    throw (.valueError "array must be non-empty: got length 0")
  else
    return ⟨array, 0, array.length, 0, false⟩

def len : ℕ := b.all.length

def processedLength : ℕ := b.start

def activeLength : ℤ := ((b.stop - b.start : ℕ) : ℤ) - b.offset

/-- The `bump_start` method of the processing range. -/
def bumpStart (amount : ℤ) : Except PyError TokenBuffer :=
  let newStart := (b.start : ℤ) + amount
  if newStart < 0 then
    throw (.valueError s!"start ({b.start}) + amount ({amount}) must be >= 0")
  else if (b.stop : ℤ) < newStart then
    throw (.valueError s!"start ({b.start}) + amount ({amount}) must be <= end ({b.stop})")
  else
    return { b with start := newStart.toNat }

/-- The `bump_end` method of the processing range. -/
def bumpEnd (amount : ℤ) : Except PyError TokenBuffer :=
  let newEnd := (b.stop : ℤ) + amount
  if newEnd < 0 then
    throw (.valueError s!"end ({b.stop}) + amount ({amount}) must be >= 0")
  else if newEnd < (b.start : ℤ) then
    throw (.valueError s!"end ({b.stop}) + amount ({amount}) must be >= start ({b.start})")
  else
    return { b with stop := newEnd.toNat }

def rewindProcessing (n : ℤ) : Except PyError TokenBuffer :=
  if n < 0 then
    throw (.valueError s!"n must be non-negative: got {n}")
  else
    b.bumpStart (-n)

def skipProcessing (n : ℤ) : Except PyError TokenBuffer :=
  if n < 0 then
    throw (.valueError s!"n must be non-negative: got {n}")
  else if b.activeLength ≤ n then
    throw (.valueError (s!"Cannot skip {n} tokens: would leave {b.activeLength - n} active tokens. "
      ++ s!"Must have at least 1 active token (current active_length={b.activeLength})"))
  else
    b.bumpStart n

def chunk (b : TokenBuffer) (chunkSize : ℤ) : Except PyError TokenBuffer :=
  if chunkSize ≤ 0 ∨ b.activeLength ≤ chunkSize then
    throw (.valueError
      s!"chunk size must be between 1 and the current number of active tokens: got {chunkSize}")
  else do
    let b ← b.bumpEnd (chunkSize - b.activeLength)
    return { b with activelyChunked := true }

def advanceChunk : Except PyError TokenBuffer :=
  if !b.activelyChunked then
    throw (.valueError "Cannot advance chunk if not actively chunked.")
  else
    return { b with start := b.stop, stop := b.len, offset := 0, activelyChunked := false }

def advanceWithToken (token : ℤ) : Except PyError TokenBuffer :=
  if b.activelyChunked then
    throw (.valueError "Cannot add a token while actively chunked.")
  else
    return { b with all := b.all ++ [token], start := b.stop, stop := b.stop + 1, offset := 0 }

def overwriteTokenAtOffsetFromEnd (offsetFromEnd : ℕ) (token : ℤ) : Except PyError TokenBuffer :=
  if offsetFromEnd < 1 ∨ b.len < offsetFromEnd then
    throw (.valueError (s!"offset_from_end ({offsetFromEnd}) must be between 1 and "
      ++ s!"the current length ({b.len})"))
  else
    return { b with all := b.all.set (b.len - offsetFromEnd) token }

end TokenBuffer

/-- A content hash that replaces a token while blocks are hashed. -/
structure TokenHashOverride where
  tokenIdx : ℕ
  tokenHash : ℤ

/-- An image: its first token, and the hash of its content. -/
structure ImageMetadata where
  startIdx : ℕ
  imageHash : Option ℤ

/-- What only a `TextAndVisionContext` has. -/
structure VisionFields where
  images : List ImageMetadata
  tokenHashOverrides : List TokenHashOverride

/-- A request; `maybeAcceptedDraftTokens` and `draftTokensToVerify` are the numbers of tokens in
these lists. -/
structure TextContext (R : Type) where
  requestId : R
  tokens : TokenBuffer
  pendingFutureCount : ℕ
  vision : Option VisionFields
  cacheSalt : Option String
  maybeAcceptedDraftTokens : ℕ
  draftTokensToVerify : ℕ
  cachedPrefixLength : Option ℤ
