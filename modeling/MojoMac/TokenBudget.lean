/-
The budgets that limit a batch (`serve/scheduler/batch_constructor/token_budget.py`).

A context is offered to the budgets in turn, and the first one that does not simply have room
decides.  The budget of active tokens may shorten the active window of the context.

* `ActiveTokenBudget`, `TotalContextTokenBudget` — the two kinds of budget;
* `TokenBudgetCollection` — the budgets of a batch;
* `ActiveTokenBudget.statusAfterContext_spec` — a context that is accepted with chunking fits.
-/
import MojoMac.TokenWindow

open StateSpec

inductive RequestType where
  | tg
  | ce
  | mixed
  | unknown
  deriving DecidableEq, Repr

namespace RequestType

/-- The types that take part in batching. -/
def all : List RequestType := [.tg, .ce, .mixed]

end RequestType

/-- The answer of a budget for a context: there is room left after it, it does not fit, or it fits
and the budget is used up. -/
inductive BudgetStatus where
  | available
  | exhausted
  | reached
  deriving DecidableEq, Repr

/-! ### Active tokens -/

/-- The budget for the active windows. -/
structure ActiveTokenBudget where
  capacity : ℤ
  allowChunking : Bool
  applicableTypes : List RequestType
  minChunkTokens : ℤ
  used : ℤ
  activeRequestType : RequestType
  deriving DecidableEq, Repr

namespace ActiveTokenBudget

variable (b : ActiveTokenBudget)

def init (capacity : ℤ) (allowChunking : Bool) (applicableTypes : List RequestType)
    (minChunkTokens : ℤ) : ActiveTokenBudget :=
  ⟨capacity, allowChunking, applicableTypes, minChunkTokens, 0, .unknown⟩

def remaining : ℤ := b.capacity - b.used

/-- Where a window that is too long is cut, if it may be. -/
def chunkSize (activeLength : ℤ) : Option ℤ :=
  if 0 < b.minChunkTokens then
    let size :=
      if activeLength - b.remaining < b.minChunkTokens then activeLength - b.minChunkTokens
      else b.remaining
    if size < b.minChunkTokens then none else some size
  else
    some b.remaining

/-- The status, and the tokens with the window they are left with. -/
def statusAfterContext (tokens : TokenArray) (requestType : RequestType) :
    BudgetStatus × TokenArray :=
  if b.activeRequestType ∉ b.applicableTypes ∧ requestType ∉ b.applicableTypes then
    (.available, tokens)
  else if b.remaining ≤ 0 then
    (.exhausted, tokens)
  else if tokens.activeLength = b.remaining then
    (.reached, tokens)
  else if tokens.activeLength < b.remaining then
    (.available, tokens)
  else if !b.allowChunking then
    -- a soft limit
    (.reached, tokens)
  else
    match b.chunkSize tokens.activeLength with
    | none => (.exhausted, tokens)
    | some size =>
      match TokenArray.chunk size tokens with
      | .ok _ tokens' => (.reached, tokens')
      | .error _ tokens' => (.exhausted, tokens')

def addToBudget (tokens : TokenArray) (requestType : RequestType) : ActiveTokenBudget :=
  { b with
    activeRequestType :=
      if b.activeRequestType ≠ .mixed ∧ requestType ≠ b.activeRequestType then requestType
      else b.activeRequestType
    used := b.used + tokens.activeLength }

end ActiveTokenBudget

/-! ### Context lengths -/

/-- The budget for the lengths of the contexts, rounded up to whole pages. -/
structure TotalContextTokenBudget where
  capacity : ℤ
  applicableTypes : List RequestType
  costAlignment : ℕ
  used : ℤ
  deriving DecidableEq, Repr

namespace TotalContextTokenBudget

variable (b : TotalContextTokenBudget)

def init (capacity : ℤ) (applicableTypes : List RequestType) (costAlignment : ℕ) :
    TotalContextTokenBudget :=
  ⟨capacity, applicableTypes, costAlignment, 0⟩

/-- `x` rounded up to a multiple of `align`. -/
def alignUp (x align : ℕ) : ℕ := (x + align - 1) / align * align

def remaining : ℤ := b.capacity - b.used

/-- What a context costs. -/
def cost (tokens : TokenArray) : ℤ :=
  alignUp tokens.len b.costAlignment

def statusAfterContext (tokens : TokenArray) (requestType : RequestType) : BudgetStatus :=
  if requestType ∉ b.applicableTypes then
    .available
  else if b.remaining ≤ 0 then
    .exhausted
  else if b.cost tokens < b.remaining then
    .available
  else if b.cost tokens = b.remaining then
    .reached
  else
    .exhausted

def addToBudget (tokens : TokenArray) : TotalContextTokenBudget :=
  { b with used := b.used + b.cost tokens }

end TotalContextTokenBudget

/-! ### The budgets of a batch -/

inductive TokenBudget where
  | active (b : ActiveTokenBudget)
  | total (b : TotalContextTokenBudget)
  deriving DecidableEq, Repr

namespace TokenBudget

def remaining : TokenBudget → ℤ
  | active b => b.remaining
  | total b => b.remaining

def statusAfterContext (tokens : TokenArray) (requestType : RequestType) :
    TokenBudget → BudgetStatus × TokenArray
  | active b => b.statusAfterContext tokens requestType
  | total b => (b.statusAfterContext tokens requestType, tokens)

def addToBudget (tokens : TokenArray) (requestType : RequestType) : TokenBudget → TokenBudget
  | active b => active (b.addToBudget tokens requestType)
  | total b => total (b.addToBudget tokens)

end TokenBudget

structure TokenBudgetCollection where
  tokenBudgets : List TokenBudget
  deriving DecidableEq, Repr

namespace TokenBudgetCollection

def remaining (c : TokenBudgetCollection) : Except PyError ℤ :=
  match (c.tokenBudgets.map TokenBudget.remaining).min? with
  | none => throw (.valueError "remaining cannot be calculated without any token_budgets")
  | some r => return r

/-- The loop of `status_after_context`. -/
def statusAfterContextIn (requestType : RequestType) :
    List TokenBudget → TokenArray → BudgetStatus × TokenArray
  | [], tokens => (.available, tokens)
  | b :: budgets, tokens =>
    match b.statusAfterContext tokens requestType with
    | (.available, tokens) => statusAfterContextIn requestType budgets tokens
    | (status, tokens) => (status, tokens)

def statusAfterContext (c : TokenBudgetCollection) (tokens : TokenArray)
    (requestType : RequestType) : BudgetStatus × TokenArray :=
  statusAfterContextIn requestType c.tokenBudgets tokens

def addToBudget (c : TokenBudgetCollection) (tokens : TokenArray) (requestType : RequestType) :
    TokenBudgetCollection :=
  ⟨c.tokenBudgets.map (TokenBudget.addToBudget tokens requestType)⟩

end TokenBudgetCollection

/-! ### The windows -/

namespace ActiveTokenBudget

variable {b : ActiveTokenBudget}

/-- Where a window is cut there is room. -/
theorem chunkSize_le {activeLength size : ℤ} (h : b.chunkSize activeLength = some size) :
    size ≤ b.remaining := by
  rw [chunkSize] at h
  split at h
  · obtain ⟨-, hsize⟩ := Option.ite_none_left_eq_some.mp h
    split at hsize
    · have := Option.some.inj hsize
      omega
    · exact (Option.some.inj hsize).ge
  · exact (Option.some.inj h).ge

/-- The window may get shorter.  If windows are cut, one that is accepted fits. -/
theorem statusAfterContext_spec (b : ActiveTokenBudget) (tokens : TokenArray)
    (requestType : RequestType) :
    (b.statusAfterContext tokens requestType).2.len = tokens.len ∧
      (b.statusAfterContext tokens requestType).2.activeLength ≤ tokens.activeLength ∧
      (b.allowChunking = true → requestType ∈ b.applicableTypes →
        (b.statusAfterContext tokens requestType).1 ≠ .exhausted →
        (b.statusAfterContext tokens requestType).2.activeLength ≤ b.remaining) := by
  rw [statusAfterContext]
  split
  · rename_i happ
    exact ⟨rfl, le_rfl, fun _ hmem => absurd hmem happ.2⟩
  split
  · exact ⟨rfl, le_rfl, fun _ _ h => absurd rfl h⟩
  split
  · rename_i heq
    exact ⟨rfl, le_rfl, fun _ _ _ => heq.le⟩
  split
  · rename_i hlt
    exact ⟨rfl, le_rfl, fun _ _ _ => hlt.le⟩
  split_ifs with hchunk
  · exact ⟨rfl, le_rfl, fun hallow => absurd hallow (by simpa using hchunk)⟩
  -- the window is cut, unless there is no place for a cut
  cases hsize : b.chunkSize tokens.activeLength with
  | none => exact ⟨rfl, le_rfl, fun _ _ h => absurd rfl h⟩
  | some size =>
    have hspec := tokens.chunk_spec size
    rw [Spec] at hspec
    simp only
    cases hrun : TokenArray.chunk size tokens with
    | ok _ tokens' =>
      rw [hrun] at hspec
      obtain ⟨-, hactive, hlt, stop, rfl⟩ := hspec
      refine ⟨rfl, hactive.le.trans hlt.le, fun _ _ _ => ?_⟩
      exact hactive.le.trans (chunkSize_le hsize)
    | error _ tokens' =>
      rw [hrun] at hspec
      obtain rfl : tokens' = tokens := hspec
      exact ⟨rfl, le_rfl, fun _ _ h => absurd rfl h⟩

end ActiveTokenBudget

namespace TotalContextTokenBudget

/-- A context that is not refused fits. -/
theorem cost_le_remaining {b : TotalContextTokenBudget} {tokens : TokenArray}
    {requestType : RequestType} (happ : requestType ∈ b.applicableTypes)
    (h : b.statusAfterContext tokens requestType ≠ .exhausted) : b.cost tokens ≤ b.remaining := by
  rw [statusAfterContext, if_neg (not_not.mpr happ)] at h
  split at h
  · exact absurd rfl h
  split at h
  · rename_i hlt
    exact hlt.le
  split_ifs at h with heq
  · exact heq.le
  · exact absurd rfl h

end TotalContextTokenBudget
