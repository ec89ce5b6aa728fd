/-
Hashes of the blocks of a request (`paged_kv_cache/block_utils.py`,
`paged_kv_cache/block_manager.py`, `max/_core_mojo/__init__.py`).

* `hashRequestTokens` — the hashes of an array of tokens, with content hashes put in the place
  of media tokens while it runs;
* `computeBlockHashes` — the hashes of a request beyond those it has;
* `accumulate` — a growing request, hashed after each step.

The hash functions themselves are parameters.
-/
import MojoMac.HashChain
import MojoMac.TokenBuffer

open HashChain

inductive KVHashAlgo where
  | ahash64
  | sha256
  | sha256_64
  deriving DecidableEq, Repr

/-- Byte strings and the functions on them that the block hashes are made of: `ahash` of a seed,
a parent and the tokens of a block, `sha` of a parent and the tokens of a block, the SHA-256
`digest` of a salt, the bytewise `xor` and the first eight bytes of a digest. -/
structure Hasher (B : Type) where
  width : B → ℕ
  ahash : B → B → List ℤ → B
  sha : B → List ℤ → B
  digest : String → B
  xor : B → B → B
  truncate : B → B
  zeros : ℕ → B
  width_ahash : ∀ seed parent block, width (ahash seed parent block) = 8
  width_sha : ∀ parent block, width (sha parent block) = 32
  width_digest : ∀ salt, width (digest salt) = 32
  width_xor : ∀ a b, width (xor a b) = min (width a) (width b)
  width_truncate : ∀ a, width a = 32 → width (truncate a) = 8
  width_zeros : ∀ n, width (zeros n) = n

namespace Hasher

variable {B : Type} (hs : Hasher B)

def makeRootParentHash (seed : Option B) (salt : Option String) : Except PyError B :=
  let base := seed.getD (hs.zeros 32)
  if hs.width base ≠ 32 then
    throw (.valueError s!"seed must be exactly 32 bytes, got {hs.width base}")
  else
    -- an empty salt is no salt
    match salt.filter (· ≠ "") with
    | none => return base
    | some salt => return hs.xor base (hs.digest salt)

/-- The conversion of a token to `np.int32`. -/
def toInt32 (token : ℤ) : ℤ := token.bmod (2 ^ 32)

def blockHasher (tokens : List ℤ) (blockSize : ℕ) (parentHash seed : B) : Except PyError (List B) :=
  if blockSize = 0 then
    throw (.valueError s!"block_size must be greater than 0, found {blockSize}")
  else if hs.width parentHash ≠ 8 then
    throw (.valueError s!"parent_hash must be exactly 8 bytes, got {hs.width parentHash}")
  else if hs.width seed ≠ 32 then
    throw (.valueError s!"seed must be exactly 32 bytes, got {hs.width seed}")
  else
    return chain (hs.ahash seed) blockSize (tokens.length / blockSize) parentHash
      (tokens.map toInt32)

def blockHasherSha256 (tokens : List ℤ) (blockSize : ℕ) (parentHash : B) :
    Except PyError (List B) :=
  if blockSize = 0 then
    throw (.valueError s!"block_size must be greater than 0, found {blockSize}")
  else if hs.width parentHash ≠ 32 then
    throw (.valueError s!"parent_hash must be exactly 32 bytes, got {hs.width parentHash}")
  else
    return chain hs.sha blockSize (tokens.length / blockSize) parentHash (tokens.map toInt32)

/-- One turn of the loop over the overrides: those in the array are kept by their position in
it. -/
def addOverride (prefixLength : ℤ) (n : ℕ) (found : List (ℕ × ℤ)) (override : TokenHashOverride) :
    Except PyError (List (ℕ × ℤ)) :=
  let idx := (override.tokenIdx : ℤ) - prefixLength
  if 0 ≤ idx ∧ idx < n then
    if idx.toNat ∈ found.map Prod.fst then
      throw (.valueError "Multiple token hash overrides target the same token index.")
    else
      return found ++ [(idx.toNat, override.tokenHash)]
  else
    return found

def overridesInSlice (overrides : List TokenHashOverride) (prefixLength : ℤ) (n : ℕ) :
    Except PyError (List (ℕ × ℤ)) :=
  if overrides ≠ [] ∧ prefixLength = -1 then
    throw (.valueError "prefix_length must be set when token hash overrides are provided")
  else
    overrides.foldlM (addOverride prefixLength n) []

/-- Content hashes in the place of tokens; also the tokens that stood there. -/
def replaceTokens (tokenIds : List ℤ) (overrides : List (ℕ × ℤ)) : List ℤ × List (ℕ × ℤ) :=
  overrides.foldl (fun (tokens, reset) (idx, tokenHash) =>
    (tokens.set idx tokenHash, reset ++ [(idx, tokens.getD idx 0)])) (tokenIds, [])

/-- The tokens put back. -/
def resetTokens (tokenIds : List ℤ) (tokenToReset : List (ℕ × ℤ)) : List ℤ :=
  tokenToReset.foldl (fun tokens (idx, token) => tokens.set idx token) tokenIds

/-- The body of the `try` of `hash_request_tokens`, on the tokens with content hashes. -/
def hashTokens (algo : KVHashAlgo) (seed : Option B) (salt : Option String) (blockSize : ℕ)
    (parentHash : Option B) (tokenIds : List ℤ) : Except PyError (List B) := do
  let hashVals ← match algo with
    | .ahash64 =>
      let phBytes := parentHash.getD (hs.zeros 8)
      if seed.isSome ∨ salt.isSome then
        hs.blockHasher tokenIds blockSize phBytes (← hs.makeRootParentHash seed salt)
      else
        hs.blockHasher tokenIds blockSize phBytes (hs.zeros 32)
    | .sha256 => hs.blockHasherSha256 tokenIds blockSize (← rootOrParent "sha256")
    | .sha256_64 =>
      let digests ← hs.blockHasherSha256 tokenIds blockSize (← rootOrParent "sha256_64")
      pure (digests.map hs.truncate)
  if hashVals.length ≠ tokenIds.length / blockSize then
    throw .assertionError
  return hashVals
where
  rootOrParent (name : String) : Except PyError B :=
    match parentHash with
    | none => hs.makeRootParentHash seed salt
    | some parent =>
      if hs.width parent ≠ 32 then
        throw (.valueError
          s!"algo={name} requires 32-byte parent_hash, got{hs.width parent}")
      else
        return parent

/-- The hashes, and the tokens of the array afterwards. -/
def hashRequestTokens (algo : KVHashAlgo) (seed : Option B) (salt : Option String)
    (tokenIds : List ℤ) (blockSize : ℕ) (parentHash : Option B) (prefixLength : ℤ)
    (overrides : List TokenHashOverride) : Except PyError (List B) × List ℤ :=
  match overridesInSlice overrides prefixLength tokenIds.length with
  | .error e => (.error e, tokenIds)
  | .ok found =>
    let (replaced, tokenToReset) := replaceTokens tokenIds found
    (hs.hashTokens algo seed salt blockSize parentHash replaced,
      resetTokens replaced tokenToReset)

end Hasher

namespace TextContext

variable {R : Type}

/-- The override for an image: its first token is replaced. -/
def imageOverride (img : ImageMetadata) : Except PyError TokenHashOverride :=
  match img.imageHash with
  | none => throw (.valueError
      "hash_request_tokens requires `image_hash` to be present. Found None.")
  | some imageHash => return ⟨img.startIdx, imageHash⟩

/-- The content hashes of a request: those of its images, and then the others. -/
def hashOverrides (ctx : TextContext R) : Except PyError (List TokenHashOverride) :=
  match ctx.vision with
  | none => return []
  | some fields => do
    let images ← fields.images.mapM imageOverride
    return images ++ fields.tokenHashOverrides

/-- How many tokens can be hashed: not the last one, and no placeholder. -/
def numHashableTokens (ctx : TextContext R) : ℤ :=
  ctx.tokens.len - max 1 ctx.pendingFutureCount

end TextContext

/-- The parameters of the hashes of a block manager. -/
structure HashConfig (B : Type) where
  hasher : Hasher B
  algo : KVHashAlgo
  seed : Option B
  blockSize : ℕ

namespace HashConfig

variable {B R : Type} (cfg : HashConfig B)

/-- The new hashes, and the tokens of the request afterwards; the array that is hashed is a view
of them. -/
def computeBlockHashes (ctx : TextContext R) (existingHashes : List B) :
    Except PyError (List B) × List ℤ :=
  let tokens := ctx.tokens.all
  let numHashedTokens := existingHashes.length * cfg.blockSize
  let numUnhashedTokens := ctx.numHashableTokens - numHashedTokens
  if numUnhashedTokens < cfg.blockSize then
    (.ok [], tokens)
  else
    match ctx.hashOverrides with
    | .error e => (.error e, tokens)
    | .ok overrides =>
      let numHashableTokens := ctx.numHashableTokens.toNat
      let unhashedTokens := (tokens.take numHashableTokens).drop numHashedTokens
      let (hashes, unhashedTokens) := cfg.hasher.hashRequestTokens cfg.algo cfg.seed
        ctx.cacheSalt unhashedTokens cfg.blockSize existingHashes.getLast? numHashedTokens overrides
      (hashes, tokens.take numHashedTokens ++ unhashedTokens ++ tokens.drop numHashableTokens)

/-- A request hashed after each step of its growth, each time from the hashes so far. -/
def accumulate (hashes : List B) : List (TextContext R) → Except PyError (List B)
  | [] => return hashes
  | ctx :: ctxs => do
    let newHashes ← (cfg.computeBlockHashes ctx hashes).1
    accumulate (hashes ++ newHashes) ctxs

end HashConfig
