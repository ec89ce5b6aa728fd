/-
The tokens that are streamed, over whole runs of a request.

A `History` keeps, beside the context, the tokens that were generated, in the order in which they
became known, and those that were returned.

* `Shape` — how the buffer looks: prompt, generated tokens, placeholders;
* `toGenerationOutput_spec` — what is returned next, and when nothing can be;
* `Sound` — what is to hold after every operation;
* `run_streams_iff` — it does, along a run that resets only what has been returned, exactly when
  every operation `Fits`.
-/
import MojoMac.GenerationContext
import MojoMac.TokenWindow

open StateSpec PySlice List

set_option linter.unusedSectionVars false

namespace TokenArray.Inv

variable {b : TokenArray}

theorem generated_eq (h : b.Inv) : b.generated = b.all.drop b.promptLength := by
  rw [TokenArray.generated, slice_eq h.prompt_le h.current_le, TokenArray.all]

theorem currentPosition_eq (h : b.Inv) (hoffset : b.processingOffset = 0) :
    b.currentPosition = b.processingRange.stop := by
  have hstart := h.start_le
  rw [TokenArray.currentPosition, TokenArray.activeLength, TokenArray.processedLength,
    TokenRange.len, hoffset]
  omega

end TokenArray.Inv

namespace EOSTracker

/-- The generated tokens end the sequence. -/
def ends (t : EOSTracker) (generatedTokens : List ℤ) : Bool :=
  match t.isEosFromTokens generatedTokens with
  | .ok eos => eos
  | .error _ => false

theorem isEosFromTokens_eq (t : EOSTracker) {l : List ℤ} (h : l ≠ []) :
    t.isEosFromTokens l = .ok (t.ends l) := by
  rw [ends, isEosFromTokens, getLast?_eq_some_getLast h]
  rfl

end EOSTracker

namespace GenerationContext

variable {R L : Type} {ctx ctx' : GenerationContext R L}

theorem isEos_spec {l : List ℤ} (h : l ≠ []) :
    Returns (isEos l) ctx fun eos ctx' => eos = ctx.eosTracker.ends l ∧ ctx' = ctx := by
  rw [Returns, isEos]
  simp only [spec_bind, spec_get, EOSTracker.isEosFromTokens_eq _ h]
  exact ⟨rfl, rfl⟩

/-- The status after a token was appended. -/
def nextStatus (ctx : GenerationContext R L) (newToken : ℤ) : GenerationStatus :=
  if newToken ≠ futureToken ∧ ctx.eosTracker.ends ctx.tokens.generated then
    .endOfSequence
  else if ctx.maxLength ≤ ctx.tokens.currentPosition then
    .maximumLength
  else
    ctx.status

theorem updateStatus_spec (h : ctx.tokens.generated ≠ []) (newToken : ℤ) :
    Returns (updateStatus newToken) ctx fun _ ctx' =>
      ctx' = ctx.setStatus (ctx.nextStatus newToken) := by
  have hfinish : ∀ eos : Bool, Spec (if eos then modify (setStatus .endOfSequence)
        else if ctx.maxLength ≤ ctx.tokens.currentPosition then modify (setStatus .maximumLength)
        else pure PUnit.unit : PyM (GenerationContext R L) PUnit) ctx
        (fun _ ctx' => ctx' = ctx.setStatus (if eos then .endOfSequence
          else if ctx.maxLength ≤ ctx.tokens.currentPosition then .maximumLength else ctx.status))
        fun _ _ => False := by
    intro eos
    split
    · rfl
    · split
      · rfl
      · rfl
  rw [Returns, updateStatus, nextStatus, spec_get_bind]
  by_cases hfuture : newToken = futureToken
  · simp only [hfuture, ne_eq, not_true_eq_false, if_false, false_and]
    exact hfinish false
  · simp only [ne_eq, hfuture, not_false_eq_true, if_true, true_and, spec_bind]
    refine Spec.imp (isEos_spec h) ?_
    rintro _ _ ⟨rfl, rfl⟩
    exact hfinish _

/-- Nothing but the log probabilities changed. -/
def SameButLog (ctx ctx' : GenerationContext R L) : Prop :=
  ∃ data, ctx' = { ctx with logProbabilitiesData := data }

theorem storeLogProbabilities_same (ctx : GenerationContext R L) (position : ℤ) (p : Option L) :
    SameButLog ctx (storeLogProbabilities position p ctx) := by
  cases p with
  | none | some p => exact ⟨_, rfl⟩

/-- Tokens were added to the buffer, and the streaming window is the same. -/
structure Extended (ctx : GenerationContext R L) (added : List ℤ) (ctx' : GenerationContext R L) :
    Prop where
  inv : ctx'.tokens.Inv
  offset : ctx'.tokens.processingOffset = 0
  stop : ctx'.tokens.activelyChunked = false →
    ctx'.tokens.processingRange.stop = ctx'.tokens.currentLength
  all : ctx'.tokens.all = ctx.tokens.all ++ added
  prompt : ctx'.tokens.promptLength = ctx.tokens.promptLength
  completion : ctx'.tokens.completionRange.start = ctx.tokens.completionRange.start
  pending : ctx'.pendingFutureCount = ctx.pendingFutureCount
  maxLength : ctx'.maxLength = ctx.maxLength
  vocabSize : ctx'.vocabSize = ctx.vocabSize

/-- A token was appended, and the status brought up to date. -/
structure Appended (ctx : GenerationContext R L) (token : ℤ) (ctx' : GenerationContext R L) :
    Prop extends Extended ctx [token] ctx' where
  status : ctx'.status =
    if token ≠ futureToken ∧ ctx.eosTracker.ends (ctx'.tokens.all.drop ctx.tokens.promptLength) then
      .endOfSequence
    else if ctx.maxLength ≤ ctx'.tokens.currentLength then
      .maximumLength
    else
      ctx.status

variable {token : ℤ}

/-- `advance_token_buffer` where it appends the token. -/
theorem advanceTokenBuffer_append (h : ctx.tokens.Inv)
    (hchunked : ctx.tokens.activelyChunked = false)
    (hstop : ctx.tokens.processingRange.stop = ctx.tokens.currentLength) (memory : ℕ → ℤ)
    (htoken : ¬ (0 < ctx.pendingFutureCount ∧ token ≠ futureToken)) (p : Option L) :
    Returns (advanceTokenBuffer memory token p) ctx fun _ ctx' => Appended ctx token ctx' := by
  rw [Returns, advanceTokenBuffer]
  simp only [spec_bind, spec_get, hchunked, Bool.false_eq_true, if_false, spec_modify, htoken]
  obtain ⟨data, hdata⟩ := storeLogProbabilities_same ctx ctx.tokens.currentPosition p
  rw [hdata]
  simp only [onTokens, spec_focus]
  refine Spec.imp (TokenArray.advanceWithToken_spec h hchunked memory token) ?_
  rintro _ b ⟨array, rfl, hinv, hall⟩
  refine Spec.imp (updateStatus_spec ?_ token) ?_
  · have hle := h.prompt_le
    rw [hinv.generated_eq, ← length_pos_iff, length_drop, hinv.length_all]
    simp only
    omega
  · rintro _ _ rfl
    refine ⟨⟨hinv, rfl, fun _ => congrArg (· + 1) hstop, hall, rfl, rfl, rfl, rfl, rfl⟩, ?_⟩
    change (if token ≠ futureToken ∧ ctx.eosTracker.ends (TokenArray.generated _) then _
      else if ctx.maxLength ≤ TokenArray.currentPosition _ then _ else _) = _
    rw [hinv.generated_eq, hinv.currentPosition_eq rfl]
    simp only [hstop]
    rfl

/-! ### Histories -/

variable (R L) in
/-- A context with the tokens that were generated, all of them and those since the last reset, the
tokens that were returned, and whether the end of the sequence was reached. -/
structure History where
  ctx : GenerationContext R L
  returned : List ℤ
  generated : List ℤ
  sinceReset : List ℤ
  ended : Bool

/-- How the buffer of a context looks. -/
structure Shape (prompt : List ℤ) (h : History R L) : Prop where
  inv : h.ctx.tokens.Inv
  offset : h.ctx.tokens.processingOffset = 0
  stop : h.ctx.tokens.activelyChunked = false →
    h.ctx.tokens.processingRange.stop = h.ctx.tokens.currentLength
  all : h.ctx.tokens.all =
    prompt ++ h.generated ++ List.replicate h.ctx.pendingFutureCount futureToken
  returned : h.returned <+: h.generated
  completion : h.ctx.tokens.completionRange.start = prompt.length + h.returned.length
  since : ∃ before, h.generated = before ++ h.sinceReset ∧
    h.ctx.tokens.promptLength = prompt.length + before.length

/-- The status of a context says what has been reached, placeholders included. -/
def StatusFits (prompt : List ℤ) (h : History R L) : Prop :=
  match h.ctx.status with
  | .active => True
  | .endOfSequence => h.ended = true
  | .maximumLength =>
    h.ctx.maxLength ≤ prompt.length + h.generated.length + h.ctx.pendingFutureCount
  | .cancelled => False

variable {prompt : List ℤ} {h : History R L}

/-- The status stays, and what it says stays true. -/
theorem StatusFits.mono {h' : History R L} (hs : StatusFits prompt h)
    (hstatus : h'.ctx.status = h.ctx.status) (hended : h.ended = true → h'.ended = true)
    (hmax : h.ctx.status = .maximumLength →
      h.ctx.maxLength ≤ prompt.length + h.generated.length + h.ctx.pendingFutureCount →
      h'.ctx.maxLength ≤ prompt.length + h'.generated.length + h'.ctx.pendingFutureCount) :
    StatusFits prompt h' := by
  rw [StatusFits] at hs ⊢
  rw [hstatus]
  cases hcase : h.ctx.status with
  | active => trivial
  | endOfSequence =>
    rw [hcase] at hs
    exact hended hs
  | maximumLength =>
    rw [hcase] at hs
    exact hmax hcase hs
  | cancelled =>
    rw [hcase] at hs
    exact hs

theorem StatusFits.of_maximumLength (hstatus : h.ctx.status = .maximumLength)
    (hmax : h.ctx.maxLength ≤ prompt.length + h.generated.length + h.ctx.pendingFutureCount) :
    StatusFits prompt h := by
  rw [StatusFits, hstatus]
  exact hmax

theorem ValidToken.congr (h : ctx.ValidToken token) (hvocab : ctx'.vocabSize = ctx.vocabSize) :
    ctx'.ValidToken token :=
  ⟨h.1, fun size hsize => h.2 size (hvocab ▸ hsize)⟩

variable {rest : List ℤ}

/-- The invariant of a history. -/
structure Inv (prompt : List ℤ) (h : History R L) : Prop extends Shape prompt h where
  valid : ∀ token ∈ h.generated, h.ctx.ValidToken token
  status : StatusFits prompt h

namespace Shape

theorem currentLength_eq (hs : Shape prompt h) : h.ctx.tokens.currentLength =
    prompt.length + h.generated.length + h.ctx.pendingFutureCount := by
  rw [← hs.inv.length_all, hs.all, length_append, length_append, length_replicate]

theorem take_all (hs : Shape prompt h) :
    h.ctx.tokens.all.take (prompt.length + h.generated.length) = prompt ++ h.generated := by
  rw [hs.all, ← length_append, take_left]

/-- The tokens that are generated and not yet returned. -/
theorem drop_take_all (hs : Shape prompt h) (hrest : h.generated = h.returned ++ rest) :
    (h.ctx.tokens.all.take (prompt.length + h.generated.length)).drop
      h.ctx.tokens.completionRange.start = rest := by
  rw [hs.take_all, hs.completion, hrest, ← append_assoc, ← length_append, drop_left]

theorem drop_all (hs : Shape prompt h) : h.ctx.tokens.all.drop h.ctx.tokens.promptLength =
    h.sinceReset ++ replicate h.ctx.pendingFutureCount futureToken := by
  obtain ⟨before, hbefore, hprompt⟩ := hs.since
  rw [hs.all, hprompt, hbefore, ← length_append, append_assoc, append_assoc,
    ← append_assoc prompt, drop_left]

end Shape

/-! ### What is returned -/

variable [ToString R]

theorem checkTokenId_spec (ctx : GenerationContext R L) (token : ℤ) :
    Spec (checkTokenId token) ctx (fun _ ctx' => ctx' = ctx ∧ ctx.ValidToken token)
      fun _ _ => ¬ ctx.ValidToken token := by
  rw [checkTokenId]
  simp only [spec_bind, spec_get]
  split_ifs with hneg
  · exact fun hvalid => absurd hvalid.1 (not_le.mpr hneg)
  rw [not_lt] at hneg
  cases hvocab : ctx.vocabSize with
  | none => exact ⟨rfl, hneg, by simp [hvocab]⟩
  | some size =>
    simp only
    split_ifs with hle
    · exact fun hvalid => absurd (hvalid.2 size (by simp [hvocab])) (not_lt.mpr hle)
    · refine ⟨rfl, hneg, ?_⟩
      simpa [hvocab] using hle

theorem forM_checkTokenId (ctx : GenerationContext R L) (tokens : List ℤ) :
    Spec (tokens.forM checkTokenId) ctx
      (fun _ ctx' => ctx' = ctx ∧ ∀ token ∈ tokens, ctx.ValidToken token)
      fun _ _ => ¬ ∀ token ∈ tokens, ctx.ValidToken token := by
  refine Spec.forM (I := fun done ctx' => ctx' = ctx ∧ ∀ token ∈ done, ctx.ValidToken token)
    tokens ?_ ⟨rfl, by simp⟩
  rintro done token todo rfl _ ⟨rfl, hdone⟩
  refine (checkTokenId_spec _ token).mono ?_ ?_
  · rintro _ _ ⟨rfl, hvalid⟩
    refine ⟨rfl, fun t ht => ?_⟩
    rcases mem_append.mp ht with ht | ht
    · exact hdone t ht
    · rw [mem_singleton.mp ht]
      exact hvalid
  · exact fun _ _ hinvalid hall => hinvalid (hall token (by simp))

theorem not_validToken_futureToken (ctx : GenerationContext R L) :
    ¬ ctx.ValidToken futureToken := fun h => absurd h.1 (by decide)

theorem popLogProbabilities_spec (ctx : GenerationContext R L) (ids : List ℕ) :
    Returns (ids.foldlM popLogProbabilities none) ctx fun _ ctx' => SameButLog ctx ctx' := by
  refine Spec.foldlM (I := fun _ (_ : Option (List L)) ctx' => SameButLog ctx ctx') ids none ?_
    ⟨_, rfl⟩
  rintro done id todo - acc _ ⟨data, rfl⟩
  rw [popLogProbabilities, spec_get_bind]
  split
  · exact ⟨_, rfl⟩
  · exact ⟨_, rfl⟩

/-- The context after all tokens that are known were taken from the buffer. -/
def History.consumed (prompt : List ℤ) (h : History R L) : GenerationContext R L :=
  { h.ctx with tokens := { h.ctx.tokens with completionRange :=
    ⟨prompt.length + h.generated.length, h.ctx.tokens.completionRange.stop⟩ } }

/-- The tokens are taken from the buffer, whether they can be returned or not. -/
theorem consumeTokens_spec (hs : Shape prompt h)
    (hrest : h.generated = h.returned ++ rest) (hne : rest ≠ []) : Spec consumeTokens h.ctx
      (fun tokens ctx' => tokens = rest ∧ (∀ token ∈ rest, h.ctx.ValidToken token) ∧
        ctx' = h.consumed prompt) fun _ _ => ¬ ∀ token ∈ rest, h.ctx.ValidToken token := by
  have hlength := congrArg length hrest
  rw [length_append] at hlength
  have hpos : 0 < rest.length := length_pos_iff.mpr hne
  have hcompletion := hs.completion
  have hcurrent := hs.currentLength_eq
  have hstop := hs.inv.completion_stop
  rw [consumeTokens]
  simp only [spec_bind, spec_get, onTokens, spec_focus]
  have hconsume : Returns (TokenArray.consumeRecentlyGeneratedTokens h.ctx.pendingFutureCount)
      h.ctx.tokens fun tokens b' => tokens = rest ∧ b' = (h.consumed prompt).tokens := by
    refine Spec.mono (TokenArray.consumeRecentlyGeneratedTokens_spec hs.inv _) ?_ ?_
    · rintro _ _ ⟨stop, hend, -, -, rfl, rfl⟩
      obtain rfl : stop = prompt.length + h.generated.length := by omega
      exact ⟨hs.drop_take_all hrest, rfl⟩
    · rintro _ _ ⟨-, hbounds⟩
      exact hbounds ⟨by omega, by omega, by omega⟩
  refine Returns.mono hconsume ?_
  rintro _ _ ⟨rfl, rfl⟩
  split_ifs with hfuture
  · exact fun hvalid => not_validToken_futureToken _ (hvalid _ hfuture)
  · simp only [spec_bind]
    refine (forM_checkTokenId _ _).mono ?_ fun _ _ hinvalid => hinvalid
    rintro _ _ ⟨rfl, hvalid⟩
    exact ⟨rfl, hvalid, rfl⟩

/-- **What is returned next**: the generated tokens that have not been returned, if they can be. -/
theorem toGenerationOutput_spec (hs : Shape prompt h) (hrest : h.generated = h.returned ++ rest) :
    Spec toGenerationOutput h.ctx
      (fun out ctx' => out.tokens = rest ∧ out.finalStatus = h.ctx.reportedStatus ∧
        (∀ token ∈ rest, h.ctx.ValidToken token) ∧ SameButLog (h.consumed prompt) ctx')
      fun _ _ => ¬ ∀ token ∈ rest, h.ctx.ValidToken token := by
  have hlength := congrArg length hrest
  rw [length_append] at hlength
  have hcompletion := hs.completion
  have hcurrent := hs.currentLength_eq
  have hstop := hs.inv.completion_stop
  have hids : h.ctx.elementIds.length = rest.length := by
    rw [elementIds, length_range']
    omega
  -- a completion range that is left as it is
  have hsame : rest = [] → h.consumed prompt = h.ctx := by
    intro hnil
    rw [hnil, length_nil] at hlength
    rw [History.consumed,
      show prompt.length + h.generated.length = h.ctx.tokens.completionRange.start by omega]
  rw [toGenerationOutput, spec_get_bind]
  split
  · rename_i hnone
    have hempty : h.ctx.tokens.completionRange.stop ≤ h.ctx.tokens.completionRange.start := by
      simpa [TokenArray.hasOutstandingGeneratedTokens, TokenRange.len, Nat.sub_eq_zero_iff_le]
        using hnone
    obtain rfl : rest = [] := length_eq_zero_iff.mp (by omega)
    refine ⟨rfl, rfl, by simp, h.ctx.logProbabilitiesData, ?_⟩
    rw [hsame rfl]
  simp only [hids]
  by_cases hnil : rest = []
  · simp only [hnil, length_nil, lt_irrefl, if_false, pure_bind, spec_bind]
    refine Returns.mono (popLogProbabilities_spec _ _) ?_
    rintro _ _ hlog
    refine ⟨rfl, rfl, by simp, ?_⟩
    rw [hsame hnil]
    exact hlog
  · simp only [length_pos_iff.mpr hnil, if_true, spec_bind]
    refine (consumeTokens_spec hs hrest hnil).imp ?_
    rintro _ _ ⟨rfl, hvalid, rfl⟩
    refine Returns.mono (popLogProbabilities_spec _ _) ?_
    rintro _ _ hlog
    exact ⟨rfl, rfl, hvalid, hlog⟩

/-! ### Runs -/

/-- The operations of a request while it generates tokens. -/
inductive Op (L : Type) where
  | update (memory : ℕ → ℤ) (newToken : ℤ) (logProbabilities : Option L)
  | updateWithFutureToken (memory : ℕ → ℤ) (maxPendingFutures : ℤ)
  | realizeFutureToken (newToken : ℤ) (logProbabilities : Option L)
  | chunk (chunkSize : ℤ)
  | skipProcessing (n : ℤ)
  | rewindProcessing (n : ℤ)
  | output
  | reset

namespace History

def setCtx (h : History R L) (ctx : GenerationContext R L) : History R L := { h with ctx := ctx }

/-- A token became known. -/
def record (h : History R L) (token : ℤ) (ctx : GenerationContext R L) : History R L :=
  { h with
    ctx := ctx
    generated := h.generated ++ [token]
    sinceReset := h.sinceReset ++ [token]
    ended := h.ended || h.ctx.eosTracker.ends (h.sinceReset ++ [token]) }

/-- The history after an operation, whether it returned or raised.  A token that is swallowed by a
chunk is not generated. -/
def step (h : History R L) : Op L → History R L
  | .update memory newToken p =>
    outcome (GenerationContext.update memory newToken p) h.ctx
      (fun _ ctx => if h.ctx.tokens.activelyChunked then h.setCtx ctx else h.record newToken ctx)
      fun _ ctx => h.setCtx ctx
  | .updateWithFutureToken memory maxPendingFutures =>
    h.setCtx (finalState (GenerationContext.updateWithFutureToken memory maxPendingFutures) h.ctx)
  | .realizeFutureToken newToken p =>
    outcome (GenerationContext.realizeFutureToken newToken p) h.ctx
      (fun _ ctx => h.record newToken ctx) fun _ ctx => h.setCtx ctx
  | .chunk chunkSize => h.setCtx (finalState (onTokens (TokenArray.chunk chunkSize)) h.ctx)
  | .skipProcessing n => h.setCtx (finalState (onTokens (TokenArray.skipProcessing n)) h.ctx)
  | .rewindProcessing n => h.setCtx (finalState (onTokens (TokenArray.rewindProcessing n)) h.ctx)
  | .output =>
    outcome toGenerationOutput h.ctx
      (fun out ctx => { h.setCtx ctx with returned := h.returned ++ out.tokens })
      fun _ ctx => h.setCtx ctx
  | .reset =>
    outcome GenerationContext.reset h.ctx
      (fun _ ctx => { h.setCtx ctx with sinceReset := [] }) fun _ ctx => h.setCtx ctx

end History

/-- What is to hold after every operation: the placeholders are the last tokens of the buffer, and
with the tokens that are returned next all tokens generated so far have been returned, with a
status that they have reached. -/
structure Sound (prompt : List ℤ) (h : History R L) : Prop where
  all : h.ctx.tokens.all =
    prompt ++ h.generated ++ List.replicate h.ctx.pendingFutureCount futureToken
  realized : futureToken ∉ h.generated
  output : Returns toGenerationOutput h.ctx fun out _ => h.returned ++ out.tokens = h.generated ∧
    (out.finalStatus = .endOfSequence → h.ended = true) ∧
    (out.finalStatus = .maximumLength → h.ctx.maxLength ≤ prompt.length + h.generated.length) ∧
    out.finalStatus ≠ .cancelled

/-- When an operation keeps it: the tokens are token ids, and at a reset a maximal length has been
reached by the tokens that are known. -/
def Op.Fits (ctx : GenerationContext R L) : Op L → Prop
  | .update _ newToken _ => ctx.tokens.activelyChunked = true ∨
      (0 < ctx.pendingFutureCount ∧ newToken ≠ futureToken) ∨ ctx.ValidToken newToken
  | .realizeFutureToken newToken _ => ctx.pendingFutureCount = 0 ∨ ctx.ValidToken newToken
  | .reset => ctx.status = .maximumLength →
      ctx.maxLength ≤ (ctx.tokens.len : ℤ) - ctx.pendingFutureCount
  | _ => True

theorem reportedStatus_cases (hi : Inv prompt h) :
    (h.ctx.reportedStatus = .endOfSequence → h.ended = true) ∧
      (h.ctx.reportedStatus = .maximumLength →
        h.ctx.maxLength ≤ prompt.length + h.generated.length) ∧
      h.ctx.reportedStatus ≠ .cancelled := by
  have hlen : h.ctx.tokens.len = prompt.length + h.generated.length + h.ctx.pendingFutureCount := by
    rw [TokenArray.len, hi.inv.length_all, hi.currentLength_eq]
  have hstatus := hi.status
  rw [StatusFits] at hstatus
  rw [reportedStatus]
  split_ifs with hreported
  · simp
  refine ⟨fun heos => ?_, fun hmax => ?_, fun hcancelled => ?_⟩
  · rw [heos] at hstatus
    exact hstatus
  · rw [hmax] at hstatus
    by_cases hpending : 0 < h.ctx.pendingFutureCount
    · have hreached := not_and.mp (not_and.mp hreported hmax) hpending
      omega
    · simp only at hstatus
      omega
  · rw [hcancelled] at hstatus
    exact hstatus

theorem Inv.sound (hi : Inv prompt h) : Sound prompt h where
  all := hi.all
  realized := fun hmem => not_validToken_futureToken _ (hi.valid _ hmem)
  output := by
    obtain ⟨rest, hrest⟩ := hi.returned
    refine Spec.mono (toGenerationOutput_spec hi.toShape hrest.symm) ?_ ?_
    · rintro out _ ⟨rfl, hstatus, -, -⟩
      rw [hstatus]
      exact ⟨hrest, reportedStatus_cases hi⟩
    · intro _ _ hinvalid
      refine hinvalid fun token htoken => hi.valid token ?_
      rw [← hrest]
      exact mem_append_right _ htoken

/-- Where the buffer is in shape, tokens that can be returned are token ids. -/
theorem Sound.valid (hs : Shape prompt h) (h' : Sound prompt h)
    (hrest : h.generated = h.returned ++ rest) :
    (∀ token ∈ rest, h.ctx.ValidToken token) ∧ (h.ctx.reportedStatus = .maximumLength →
        h.ctx.maxLength ≤ prompt.length + h.generated.length) := by
  obtain ⟨out, ctx', -, ⟨-, -, hmax, -⟩, -, hstatus, hvalid, -⟩ :=
    h'.output.and_spec (toGenerationOutput_spec hs hrest)
  rw [hstatus] at hmax
  exact ⟨hvalid, hmax⟩

/-! ### One operation -/

/-- The tokens, the streaming window and the status are the same. -/
structure Kept (ctx ctx' : GenerationContext R L) : Prop extends Extended ctx [] ctx' where
  status : ctx'.status = ctx.status

theorem Shape.kept (hs : Shape prompt h) {data : ℤ → Option L} :
    Kept h.ctx { h.ctx with logProbabilitiesData := data } :=
  ⟨⟨hs.inv, hs.offset, hs.stop, (append_nil _).symm, rfl, rfl, rfl, rfl, rfl⟩, rfl⟩

variable {pending : ℕ}

/-- Of the tokens that were added, `k` became known at once. -/
theorem Shape.extend (hs : Shape prompt h) {added k : List ℤ} (he : Extended h.ctx added ctx')
    (hall : replicate h.ctx.pendingFutureCount futureToken ++ added =
      k ++ replicate pending futureToken) (ended : Bool) :
    Shape prompt ⟨{ ctx' with pendingFutureCount := pending }, h.returned, h.generated ++ k,
      h.sinceReset ++ k, ended⟩ := by
  obtain ⟨before, hbefore, hprompt⟩ := hs.since
  refine ⟨he.inv, he.offset, he.stop, ?_, hs.returned.trans (prefix_append ..),
    he.completion.trans hs.completion, before, ?_, he.prompt.trans hprompt⟩
  · rw [he.all, hs.all, append_assoc, hall]
    simp only [append_assoc]
  · rw [hbefore, append_assoc]

theorem Shape.setCtx (hs : Shape prompt h) {added : List ℤ} (he : Extended h.ctx added ctx')
    (hall : replicate h.ctx.pendingFutureCount futureToken ++ added =
      replicate pending futureToken) :
    Shape prompt (h.setCtx { ctx' with pendingFutureCount := pending }) := by
  have hshape := hs.extend (k := []) he hall h.ended
  simp only [append_nil] at hshape
  exact hshape

theorem Inv.setCtx (hi : Inv prompt h) (hk : Kept h.ctx ctx') : Inv prompt (h.setCtx ctx') where
  toShape := hi.toShape.setCtx hk.toExtended (by rw [append_nil, hk.pending])
  valid token htoken := (hi.valid token htoken).congr hk.vocabSize
  status := by
    refine hi.status.mono hk.status id fun _ hmax => ?_
    change ctx'.maxLength ≤ prompt.length + h.generated.length + ctx'.pendingFutureCount
    rw [hk.maxLength, hk.pending]
    exact hmax

/-- An operation on the processing window. -/
theorem Inv.onTokens (hi : Inv prompt h) {m : PyM TokenArray Unit}
    (hm : Spec m h.ctx.tokens (fun _ b' => b'.Inv ∧ ∃ range chunked,
      b' = { h.ctx.tokens with processingRange := range, activelyChunked := chunked } ∧
        (chunked = false → range.stop = h.ctx.tokens.currentLength))
      fun _ b' => b' = h.ctx.tokens) :
    Inv prompt (h.setCtx (finalState (GenerationContext.onTokens m) h.ctx)) := by
  refine Spec.finalState (P := fun ctx' => Inv prompt (h.setCtx ctx')) ?_
  rw [GenerationContext.onTokens, spec_focus]
  refine hm.mono ?_ ?_
  · rintro _ _ ⟨hinv, range, chunked, rfl, hstop⟩
    exact hi.setCtx ⟨⟨hinv, hi.offset, hstop, (append_nil _).symm, rfl, rfl, rfl, rfl, rfl⟩, rfl⟩
  · rintro _ _ rfl
    exact hi

theorem Shape.append (hs : Shape prompt h) (ha : Appended h.ctx token ctx')
    (hpending : h.ctx.pendingFutureCount = 0) : Shape prompt (h.record token ctx') :=
  hs.extend ha.toExtended (by simp [ha.pending, hpending]) _

/-- The status after a token became known. -/
theorem StatusFits.record (hs : StatusFits prompt h) (hmax : ctx'.maxLength = h.ctx.maxLength)
    (hlength : h.generated.length + h.ctx.pendingFutureCount ≤
      h.generated.length + 1 + ctx'.pendingFutureCount)
    (hstatus : ctx'.status = .endOfSequence ∧ h.ctx.eosTracker.ends (h.sinceReset ++ [token]) ∨
      ctx'.status = .maximumLength ∧
        h.ctx.maxLength ≤ prompt.length + h.generated.length + 1 + ctx'.pendingFutureCount ∨
      ctx'.status = h.ctx.status) : StatusFits prompt (h.record token ctx') := by
  have hgenerated : (h.record token ctx').generated.length = h.generated.length + 1 := length_append
  rcases hstatus with ⟨hstatus, heos⟩ | ⟨hstatus, hreached⟩ | hstatus
  · rw [StatusFits, show (h.record token ctx').ctx.status = _ from hstatus]
    change (h.ended || h.ctx.eosTracker.ends (h.sinceReset ++ [token])) = true
    rw [heos, Bool.or_true]
  · refine .of_maximumLength hstatus ?_
    change ctx'.maxLength ≤ _
    rw [hmax, hgenerated]
    exact_mod_cast hreached
  · refine hs.mono hstatus (fun hold => by simp [History.record, hold]) fun _ hreached => ?_
    change ctx'.maxLength ≤ _ + _ + (ctx'.pendingFutureCount : ℤ)
    rw [hmax, hgenerated]
    omega

/-- The tokens that are known stay token ids. -/
theorem Inv.valid_record (hi : Inv prompt h) (hvalid : h.ctx.ValidToken token)
    (hvocab : ctx'.vocabSize = h.ctx.vocabSize) :
    ∀ t ∈ (h.record token ctx').generated, ctx'.ValidToken t := by
  intro t ht
  rcases mem_append.mp ht with ht | ht
  · exact (hi.valid t ht).congr hvocab
  · rw [mem_singleton.mp ht]
    exact hvalid.congr hvocab

/-- A token that can be returned is a token id. -/
theorem Sound.valid_record (hs : Shape prompt (h.record token ctx'))
    (hreturned : h.returned <+: h.generated) (h' : Sound prompt (h.record token ctx'))
    (hvocab : ctx'.vocabSize = h.ctx.vocabSize) : h.ctx.ValidToken token := by
  obtain ⟨rest, hrest⟩ := hreturned
  have hnew : (h.record token ctx').generated =
      (h.record token ctx').returned ++ (rest ++ [token]) := by
    change h.generated ++ [token] = h.returned ++ (rest ++ [token])
    rw [← hrest, append_assoc]
  exact ((Sound.valid hs h' hnew).1 token (by simp)).congr hvocab.symm

theorem Appended.status_cases (hs : Shape prompt h) (ha : Appended h.ctx token ctx') :
    (ctx'.status = .endOfSequence ∧ token ≠ futureToken ∧
        h.ctx.eosTracker.ends (ctx'.tokens.all.drop h.ctx.tokens.promptLength)) ∨
      (ctx'.status = .maximumLength ∧ h.ctx.maxLength ≤
        prompt.length + h.generated.length + 1 + h.ctx.pendingFutureCount) ∨
      ctx'.status = h.ctx.status := by
  have hcurrent : ctx'.tokens.currentLength =
      prompt.length + h.generated.length + h.ctx.pendingFutureCount + 1 := by
    rw [← ha.inv.length_all, ha.all, length_append, hs.inv.length_all, hs.currentLength_eq]
    rfl
  have hstatus := ha.status
  split at hstatus
  · rename_i heos
    exact .inl ⟨hstatus, heos⟩
  · split at hstatus
    · refine .inr (.inl ⟨hstatus, ?_⟩)
      omega
    · exact .inr (.inr hstatus)

/-- **A token that is known** is appended. -/
theorem Inv.append (hi : Inv prompt h) (ha : Appended h.ctx token ctx')
    (hpending : h.ctx.pendingFutureCount = 0) (hvalid : h.ctx.ValidToken token) :
    Inv prompt (h.record token ctx') where
  toShape := hi.toShape.append ha hpending
  valid := hi.valid_record hvalid ha.vocabSize
  status := by
    refine hi.status.record ha.maxLength (by omega) ?_
    have hdrop : ctx'.tokens.all.drop h.ctx.tokens.promptLength = h.sinceReset ++ [token] := by
      have hle : h.ctx.tokens.promptLength ≤ h.ctx.tokens.all.length :=
        hi.inv.length_all.symm ▸ hi.inv.prompt_le
      rw [ha.all, drop_append_of_le_length hle, hi.toShape.drop_all, hpending]
      simp
    rcases ha.status_cases hi.toShape with ⟨hstatus, -, heos⟩ | ⟨hstatus, hreached⟩ | hstatus
    · exact .inl ⟨hstatus, hdrop ▸ heos⟩
    · rw [ha.pending]
      exact .inr (.inl ⟨hstatus, hreached⟩)
    · exact .inr (.inr hstatus)

/-- **A placeholder** is appended. -/
theorem Inv.appendFuture (hi : Inv prompt h) (ha : Appended h.ctx futureToken ctx') :
    Inv prompt (h.setCtx { ctx' with pendingFutureCount := ctx'.pendingFutureCount + 1 }) where
  toShape := hi.toShape.setCtx ha.toExtended (by rw [ha.pending, replicate_succ'])
  valid t ht := (hi.valid t ht).congr ha.vocabSize
  status := by
    have hreached : h.ctx.maxLength ≤ prompt.length + h.generated.length + 1 +
        h.ctx.pendingFutureCount → ctx'.maxLength ≤
          prompt.length + h.generated.length + ((ctx'.pendingFutureCount + 1 : ℕ) : ℤ) := by
      rw [ha.maxLength, ha.pending]
      omega
    rcases ha.status_cases hi.toShape with ⟨-, hne, -⟩ | ⟨hstatus, hmax⟩ | hstatus
    · exact absurd rfl hne
    · exact .of_maximumLength hstatus (hreached hmax)
    · exact hi.status.mono hstatus id fun _ hmax => hreached (by omega)

section

variable (hs : Shape prompt h)

include hs

/-- The oldest placeholder is overwritten. -/
theorem Shape.set_all (hpending : 0 < h.ctx.pendingFutureCount) (token : ℤ) :
    h.ctx.tokens.all.set (prompt.length + h.generated.length) token =
      prompt ++ (h.generated ++ [token]) ++
        replicate (h.ctx.pendingFutureCount - 1) futureToken := by
  obtain ⟨k, hk⟩ := Nat.exists_eq_succ_of_ne_zero hpending.ne'
  rw [hs.all, hk, set_append_right _ _ (by simp), length_append, Nat.sub_self,
    replicate_succ, set_cons_zero]
  simp

theorem Shape.setStatus (status : GenerationStatus) :
    Shape prompt (h.setCtx (h.ctx.setStatus status)) :=
  { hs with }

theorem Shape.realizedTokens_eq : h.ctx.realizedTokens = h.sinceReset := by
  rw [realizedTokens, hs.inv.generated_eq, hs.drop_all]
  split_ifs with hpos
  · rw [slice_neg hpos, length_append, length_replicate, Nat.add_sub_cancel, take_left]
  · rw [Nat.eq_zero_of_not_pos hpos, replicate_zero, append_nil]

theorem checkRealized_spec (hne : h.sinceReset ≠ []) :
    Returns checkRealized h.ctx fun _ ctx' => ctx' = h.ctx.setStatus
      (if h.ctx.eosTracker.ends h.sinceReset then .endOfSequence else h.ctx.status) := by
  rw [Returns, checkRealized]
  simp only [spec_bind, spec_get, hs.realizedTokens_eq, length_pos_iff.mpr hne, if_true]
  refine Spec.imp (isEos_spec hne) ?_
  rintro _ _ ⟨rfl, rfl⟩
  split
  · rfl
  · rfl

/-- **The oldest placeholder becomes known.** -/
theorem realizeFutureToken_spec (hpending : 0 < h.ctx.pendingFutureCount) (token : ℤ)
    (p : Option L) :
    Returns (realizeFutureToken token p) h.ctx fun _ ctx' => Shape prompt (h.record token ctx') ∧
      ctx'.maxLength = h.ctx.maxLength ∧ ctx'.vocabSize = h.ctx.vocabSize ∧
      ctx'.pendingFutureCount + 1 = h.ctx.pendingFutureCount ∧
      ctx'.status = if h.ctx.eosTracker.ends (h.sinceReset ++ [token]) then .endOfSequence
        else h.ctx.status := by
  obtain ⟨before, hbefore, hprompt⟩ := hs.since
  have hcurrent := hs.currentLength_eq
  have hlength := congrArg length hbefore
  rw [length_append] at hlength
  have hgenerated : ¬ h.ctx.tokens.generatedLength = 0 := by
    rw [TokenArray.generatedLength]
    omega
  rw [Returns, realizeFutureToken]
  simp only [spec_bind, spec_get, hgenerated, hpending.ne', if_false, spec_modify]
  obtain ⟨data, hdata⟩ := storeLogProbabilities_same h.ctx
    (h.ctx.tokens.currentPosition - h.ctx.pendingFutureCount) p
  rw [hdata]
  simp only [onTokens, spec_focus]
  have hwrite : Returns (TokenArray.overwriteTokenAtOffsetFromEnd h.ctx.pendingFutureCount token)
      h.ctx.tokens fun _ b' => b'.Inv ∧ b' = { h.ctx.tokens with
        array := h.ctx.tokens.array.set (prompt.length + h.generated.length) token } := by
    refine Spec.mono (TokenArray.overwriteTokenAtOffsetFromEnd_spec hs.inv _ token) ?_ ?_
    · rintro _ _ ⟨index, hindex, -, rfl, hinv⟩
      obtain rfl : index = prompt.length + h.generated.length := by omega
      exact ⟨hinv, rfl⟩
    · rintro _ _ ⟨-, hbounds⟩
      omega
  refine Spec.imp hwrite ?_
  rintro _ _ ⟨hinv, rfl⟩
  have hall := hs.set_all hpending token
  rw [TokenArray.all, ← take_set] at hall
  -- the context before the status is looked at
  have hshape : Shape prompt (h.record token { h.ctx with
      tokens := { h.ctx.tokens with
        array := h.ctx.tokens.array.set (prompt.length + h.generated.length) token }
      logProbabilitiesData := data
      pendingFutureCount := h.ctx.pendingFutureCount - 1 }) := by
    refine ⟨hinv, hs.offset, hs.stop, hall, hs.returned.trans (prefix_append ..), hs.completion,
      before, ?_, hprompt⟩
    change h.generated ++ [token] = before ++ (h.sinceReset ++ [token])
    rw [hbefore, append_assoc]
  refine Spec.imp (checkRealized_spec hshape (by simp [History.record])) ?_
  rintro _ _ rfl
  exact ⟨hshape.setStatus _, rfl, rfl, Nat.sub_add_cancel hpending, rfl⟩

/-- A reset keeps the tokens that are known, as a prompt. -/
theorem reset_spec (hreturned : h.returned = h.generated) :
    Returns GenerationContext.reset h.ctx fun _ ctx' =>
      Shape prompt { h.setCtx ctx' with sinceReset := [] } ∧ ctx'.maxLength = h.ctx.maxLength ∧
      ctx'.vocabSize = h.ctx.vocabSize ∧ ctx'.pendingFutureCount = 0 ∧
      ctx'.status = h.ctx.status := by
  obtain ⟨before, hbefore, hprompt⟩ := hs.since
  have hcurrent := hs.currentLength_eq
  have hlength := congrArg length hbefore
  rw [length_append] at hlength
  have hreset : Returns (TokenArray.resetAsNewPrompt h.ctx.pendingFutureCount) h.ctx.tokens
      fun _ b' => b' = { h.ctx.tokens with
        processingRange := ⟨0, prompt.length + h.generated.length⟩
        completionRange := ⟨prompt.length + h.generated.length, prompt.length + h.generated.length⟩
        promptLength := prompt.length + h.generated.length
        currentLength := prompt.length + h.generated.length
        activelyChunked := false } := by
    refine Spec.mono (TokenArray.resetAsNewPrompt_spec hs.inv _) ?_ ?_
    · rintro _ _ ⟨current, hnew, -, rfl⟩
      obtain rfl : current = prompt.length + h.generated.length := by omega
      rfl
    · rintro _ _ ⟨-, hmany⟩
      rw [TokenArray.generatedLength] at hmany
      omega
  rw [Returns, GenerationContext.reset]
  simp only [spec_bind, spec_get, onTokens, spec_focus]
  refine Spec.imp hreset ?_
  rintro _ _ rfl
  have hle := hs.inv.current_le
  have hpos := hs.inv.prompt_pos
  have hoffset := hs.offset
  refine ⟨⟨?_, hoffset, fun _ => rfl, ?_, hs.returned, ?_, h.generated, (append_nil _).symm, rfl⟩,
    rfl, rfl, rfl, rfl⟩
  · refine ⟨Nat.zero_le _, ?_, ?_, le_refl _, ?_, ?_, le_refl _, le_refl _, rfl⟩
    · simp [History.setCtx, hoffset]
    · simp only [History.setCtx, hoffset]
      omega
    · simp only [History.setCtx]
      omega
    · simp only [History.setCtx]
      omega
  · change take _ _ = prompt ++ h.generated ++ replicate 0 futureToken
    rw [replicate_zero, append_nil, ← hs.take_all, TokenArray.all, take_take,
      Nat.min_eq_left (by omega)]
    rfl
  · change prompt.length + h.generated.length = prompt.length + h.returned.length
    rw [hreturned]

theorem advanceTokenBuffer_chunked (hchunked : h.ctx.tokens.activelyChunked = true)
    (memory : ℕ → ℤ) (token : ℤ) (p : Option L) :
    Returns (advanceTokenBuffer memory token p) h.ctx fun _ ctx' => Kept h.ctx ctx' := by
  rw [Returns, advanceTokenBuffer]
  simp only [spec_bind, spec_get, hchunked, if_true, onTokens, spec_focus]
  refine Spec.mono (TokenArray.advanceChunk_spec hs.inv) ?_ ?_
  · rintro _ b ⟨hinv, rfl⟩
    exact ⟨⟨hinv, rfl, fun _ => rfl, (append_nil _).symm, rfl, rfl, rfl, rfl, rfl⟩, rfl⟩
  · rintro _ _ ⟨-, hnot⟩
    exact absurd hchunked (ne_true_of_eq_false hnot)

/-- A token is refused while placeholders are pending. -/
theorem advanceTokenBuffer_blocked (hchunked : h.ctx.tokens.activelyChunked = false)
    (memory : ℕ → ℤ) (htoken : 0 < h.ctx.pendingFutureCount ∧ token ≠ futureToken) (p : Option L) :
    Raises (advanceTokenBuffer memory token p) h.ctx fun _ ctx' => Kept h.ctx ctx' := by
  rw [Raises, advanceTokenBuffer]
  simp only [spec_bind, spec_get, hchunked, Bool.false_eq_true, if_false, spec_modify, htoken,
    ne_eq, not_false_eq_true, and_self, if_true, spec_throw]
  obtain ⟨data, hdata⟩ := storeLogProbabilities_same h.ctx h.ctx.tokens.currentPosition p
  rw [hdata]
  exact hs.kept

end

section

variable (hi : Inv prompt h)

include hi

/-- A token that comes from the model. -/
theorem Inv.update (memory : ℕ → ℤ) (token : ℤ) (p : Option L) :
    (Op.Fits h.ctx (.update memory token p) → Inv prompt (h.step (.update memory token p))) ∧
      (Sound prompt (h.step (.update memory token p)) → Op.Fits h.ctx (.update memory token p)) := by
  rw [History.step, GenerationContext.update]
  by_cases hchunked : h.ctx.tokens.activelyChunked = true
  · have hspec := advanceTokenBuffer_chunked hi.toShape hchunked memory token p
    refine ⟨fun _ => ?_, fun _ => .inl hchunked⟩
    refine Spec.outcome (P := Inv prompt) (Returns.mono hspec fun _ ctx' hk => ?_)
    rw [if_pos hchunked]
    exact hi.setCtx hk
  have hstop := hi.stop (by simpa using hchunked)
  by_cases hblocked : 0 < h.ctx.pendingFutureCount ∧ token ≠ futureToken
  · have hspec := advanceTokenBuffer_blocked hi.toShape (by simpa using hchunked) memory hblocked p
    refine ⟨fun _ => ?_, fun _ => .inr (.inl hblocked)⟩
    exact Spec.outcome (P := Inv prompt) (Raises.mono hspec fun _ _ hk => hi.setCtx hk)
  have hspec := advanceTokenBuffer_append hi.inv (by simpa using hchunked) hstop memory hblocked p
  have hvalid_iff : Op.Fits h.ctx (.update memory token p) ↔ h.ctx.ValidToken token := by
    rw [Op.Fits, or_iff_right hchunked, or_iff_right hblocked]
  rw [hvalid_iff]
  refine Spec.outcome (P := fun h' => (h.ctx.ValidToken token → Inv prompt h') ∧
    (Sound prompt h' → h.ctx.ValidToken token)) (Returns.mono hspec fun _ ctx' ha => ?_)
  rw [if_neg hchunked]
  refine ⟨fun hvalid => hi.append ha ?_ hvalid, fun hsound => ?_⟩
  · -- a token id is no placeholder, so none can be pending
    by_contra hpending
    refine hblocked ⟨Nat.pos_of_ne_zero hpending, ?_⟩
    rintro rfl
    exact not_validToken_futureToken _ hvalid
  · by_cases hpending : h.ctx.pendingFutureCount = 0
    · exact Sound.valid_record (hi.toShape.append ha hpending) hi.returned hsound ha.vocabSize
    have hfuture : token = futureToken := by
      by_contra hne
      exact hblocked ⟨Nat.pos_of_ne_zero hpending, hne⟩
    refine absurd ?_ hsound.realized
    rw [hfuture]
    exact mem_append_right _ mem_cons_self

/-- A placeholder is appended, unless there are too many or a chunk is going on. -/
theorem Inv.updateWithFutureToken (memory : ℕ → ℤ) (maxPendingFutures : ℤ) :
    Inv prompt (h.step (.updateWithFutureToken memory maxPendingFutures)) := by
  refine Spec.finalState (P := fun ctx' => Inv prompt (h.setCtx ctx')) ?_
  rw [GenerationContext.updateWithFutureToken]
  simp only [spec_bind, spec_get]
  split
  · exact hi
  rw [GenerationContext.update, spec_bind]
  by_cases hchunked : h.ctx.tokens.activelyChunked = true
  · refine Returns.mono (advanceTokenBuffer_chunked hi.toShape hchunked memory futureToken none) ?_
    intro _ ctx' hk
    simp only [hchunked, Bool.not_true, Bool.false_eq_true, if_false]
    exact hi.setCtx hk
  · rw [Bool.not_eq_true] at hchunked
    refine Returns.mono (advanceTokenBuffer_append hi.inv hchunked (hi.stop hchunked) memory
      (by simp) none) ?_
    intro _ ctx' ha
    simp only [hchunked, Bool.not_false, if_true]
    exact hi.appendFuture ha

/-- A token that comes for a placeholder. -/
theorem Inv.realizeFutureToken (token : ℤ) (p : Option L) :
    (Op.Fits h.ctx (.realizeFutureToken token p) →
        Inv prompt (h.step (.realizeFutureToken token p))) ∧
      (Sound prompt (h.step (.realizeFutureToken token p)) →
        Op.Fits h.ctx (.realizeFutureToken token p)) := by
  rw [History.step]
  by_cases hpending : h.ctx.pendingFutureCount = 0
  · have hraises : Raises (GenerationContext.realizeFutureToken token p) h.ctx
        fun _ ctx' => ctx' = h.ctx := by
      rw [Raises, GenerationContext.realizeFutureToken]
      simp only [spec_bind, spec_get, hpending, if_true]
      split
      · rfl
      · rfl
    refine ⟨fun _ => ?_, fun _ => .inl hpending⟩
    refine Spec.outcome (P := Inv prompt) (hraises.mono ?_)
    rintro _ _ rfl
    exact hi
  · have hspec := realizeFutureToken_spec hi.toShape (Nat.pos_of_ne_zero hpending) token p
    have hvalid_iff : Op.Fits h.ctx (.realizeFutureToken token p) ↔ h.ctx.ValidToken token := by
      rw [Op.Fits, or_iff_right hpending]
    rw [hvalid_iff]
    refine Spec.outcome (P := fun h' => (h.ctx.ValidToken token → Inv prompt h') ∧
      (Sound prompt h' → h.ctx.ValidToken token)) (Returns.mono hspec ?_)
    rintro _ ctx' ⟨hshape, hmax, hvocab, hcount, hstatus⟩
    refine ⟨fun hvalid => ⟨hshape, hi.valid_record hvalid hvocab, ?_⟩, fun hsound => ?_⟩
    · refine hi.status.record hmax (by omega) ?_
      split_ifs at hstatus with heos
      · exact .inl ⟨hstatus, heos⟩
      · exact .inr (.inr hstatus)
    · exact Sound.valid_record hshape hi.returned hsound hvocab

/-- What is generated is returned. -/
theorem Inv.output : Inv prompt (h.step .output) := by
  obtain ⟨rest, hrest⟩ := hi.returned
  have hspec := toGenerationOutput_spec hi.toShape hrest.symm
  rw [History.step]
  refine Spec.outcome (P := Inv prompt) (hspec.mono ?_ ?_)
  · rintro out _ ⟨rfl, -, -, data, rfl⟩
    have hle := hi.currentLength_eq
    have hstop := hi.inv.completion_stop
    refine ⟨{ hi.toShape with inv := ?_, returned := ?_, completion := ?_ }, hi.valid, hi.status⟩
    · refine { hi.inv with completion_le := ?_ }
      simp only [History.consumed, History.setCtx]
      omega
    · exact hrest ▸ prefix_rfl
    · change prompt.length + h.generated.length = prompt.length + (h.returned ++ out.tokens).length
      rw [hrest]
  · intro _ _ hinvalid
    refine absurd (fun token htoken => hi.valid token ?_) hinvalid
    rw [← hrest]
    exact mem_append_right _ htoken

/-- A reset after everything known has been returned. -/
theorem Inv.reset (hreturned : h.returned = h.generated) :
    (Op.Fits h.ctx (.reset : Op L) → Inv prompt (h.step .reset)) ∧
      (Sound prompt (h.step .reset) → Op.Fits h.ctx (.reset : Op L)) := by
  have hlen : (h.ctx.tokens.len : ℤ) - h.ctx.pendingFutureCount =
      prompt.length + h.generated.length := by
    rw [TokenArray.len, hi.inv.length_all, hi.currentLength_eq]
    omega
  rw [Op.Fits, hlen, History.step]
  refine Spec.outcome (P := fun h' => ((h.ctx.status = .maximumLength →
    h.ctx.maxLength ≤ prompt.length + h.generated.length) → Inv prompt h') ∧
    (Sound prompt h' → h.ctx.status = .maximumLength →
      h.ctx.maxLength ≤ prompt.length + h.generated.length))
    (Returns.mono (reset_spec hi.toShape hreturned) ?_)
  rintro _ ctx' ⟨hshape, hmax, hvocab, hpending, hstatus⟩
  refine ⟨fun hfits => ⟨hshape, fun t ht => (hi.valid t ht).congr hvocab, ?_⟩,
    fun hsound hmaximum => ?_⟩
  · refine hi.status.mono hstatus id fun hcase _ => ?_
    change ctx'.maxLength ≤ prompt.length + h.generated.length + ctx'.pendingFutureCount
    have hreached := hfits hcase
    omega
  · -- without placeholders the status is reported as it is
    have hreported : ctx'.reportedStatus = .maximumLength := by
      rw [reportedStatus, hpending, if_neg (by simp), hstatus, hmaximum]
    have hnothing : h.generated = h.returned ++ [] := by rw [hreturned, append_nil]
    have hreached := (Sound.valid hshape hsound hnothing).2 hreported
    exact hmax ▸ hreached

/-- **One operation**: what is to hold afterwards does so exactly when the operation fits. -/
theorem Inv.step (op : Op L) (hallowed : op = .reset → h.returned = h.generated) :
    (op.Fits h.ctx → Inv prompt (h.step op)) ∧ (Sound prompt (h.step op) → op.Fits h.ctx) := by
  cases op with
  | update memory token p => exact hi.update memory token p
  | updateWithFutureToken memory maxPendingFutures =>
    exact ⟨fun _ => hi.updateWithFutureToken memory maxPendingFutures, fun _ => trivial⟩
  | realizeFutureToken token p => exact hi.realizeFutureToken token p
  | chunk chunkSize =>
    refine ⟨fun _ => hi.onTokens ?_, fun _ => trivial⟩
    refine (TokenArray.chunk_spec _ chunkSize).imp ?_
    rintro _ _ ⟨hinv, -, -, stop, rfl⟩
    exact ⟨hinv hi.inv, _, true, rfl, nofun⟩
  | skipProcessing n =>
    refine ⟨fun _ => hi.onTokens ?_, fun _ => trivial⟩
    refine (TokenArray.skipProcessing_spec _ n).imp ?_
    rintro _ _ ⟨hinv, -, start, rfl⟩
    exact ⟨hinv hi.inv, _, _, rfl, hi.stop⟩
  | rewindProcessing n =>
    refine ⟨fun _ => hi.onTokens ?_, fun _ => trivial⟩
    refine (TokenArray.rewindProcessing_spec h.ctx.tokens n).imp ?_
    rintro _ b' ⟨start, hstart, hn, hb'⟩
    have hoffset := hi.offset
    have hinv : b'.Inv := (TokenArray.rewindProcessing_sound_iff hi.inv hstart hn hb').1 (by omega)
    exact ⟨hinv, _, _, hb', hi.stop⟩
  | output => exact ⟨fun _ => hi.output, fun _ => trivial⟩
  | reset => exact hi.reset (hallowed rfl)

end

/-! ### Whole runs -/

/-- The history of a new context. -/
def History.start (ctx : GenerationContext R L) : History R L := ⟨ctx, [], [], [], false⟩

/-- Resets are made only when all tokens that are known have been returned. -/
def OutputFirst : History R L → List (Op L) → Prop
  | _, [] => True
  | h, op :: ops => (op = .reset → h.returned = h.generated) ∧ OutputFirst (h.step op) ops

/-- Every operation of a run fits when it is made. -/
def Fitting : History R L → List (Op L) → Prop
  | _, [] => True
  | h, op :: ops => op.Fits h.ctx ∧ Fitting (h.step op) ops

/-- What is to hold does so at the start of a run and after each operation. -/
def SoundAlong (prompt : List ℤ) : History R L → List (Op L) → Prop
  | h, [] => Sound prompt h
  | h, op :: ops => Sound prompt h ∧ SoundAlong prompt (h.step op) ops

variable {ops : List (Op L)}

theorem SoundAlong.head (hs : SoundAlong prompt h ops) : Sound prompt h := by
  cases ops with
  | nil => exact hs
  | cons op ops => exact hs.1

theorem Inv.soundAlong_iff (hi : Inv prompt h) (hresets : OutputFirst h ops) :
    SoundAlong prompt h ops ↔ Fitting h ops := by
  induction ops generalizing h with
  | nil => exact ⟨fun _ => trivial, fun _ => hi.sound⟩
  | cons op ops ih =>
    obtain ⟨hkeeps, hfits⟩ := hi.step op hresets.1
    constructor
    · rintro ⟨-, hrest⟩
      have hfit := hfits hrest.head
      exact ⟨hfit, (ih (hkeeps hfit) hresets.2).mp hrest⟩
    · rintro ⟨hfit, hrest⟩
      exact ⟨hi.sound, (ih (hkeeps hfit) hresets.2).mpr hrest⟩

theorem start_inv {b : TokenArray} (hinit : TokenArray.init prompt = .ok b) (requestId : R)
    (maxLength : ℤ) (eosTracker : EOSTracker) (vocabSize : Option ℤ) :
    Inv prompt (History.start (init requestId b maxLength eosTracker vocabSize :
      GenerationContext R L)) := by
  have hinv := TokenArray.init_inv hinit
  rw [TokenArray.init] at hinit
  split at hinit
  · cases hinit
  · obtain rfl := Except.ok.inj hinit
    exact ⟨⟨hinv, rfl, fun _ => rfl, by simp [History.start, init, TokenArray.all],
      prefix_rfl, rfl, [], rfl, rfl⟩, by simp [History.start], trivial⟩

/-- **The tokens that are streamed**: in every run from a new context that resets only what has
been returned, every token is returned once, in order, no placeholder is returned and the status is
one that was reached, exactly as long as every operation fits. -/
theorem run_streams_iff {b : TokenArray} (hinit : TokenArray.init prompt = .ok b) (requestId : R)
    (maxLength : ℤ) (eosTracker : EOSTracker) (vocabSize : Option ℤ) {ops : List (Op L)}
    (hresets : OutputFirst (.start (init requestId b maxLength eosTracker vocabSize)) ops) :
    SoundAlong prompt (.start (init requestId b maxLength eosTracker vocabSize)) ops ↔
      Fitting (.start (init requestId b maxLength eosTracker vocabSize)) ops :=
  (start_inv hinit requestId maxLength eosTracker vocabSize).soundAlong_iff hresets

/-- A request for two tokens, both scheduled before the first is known. -/
def twoAhead : List (Op Unit) :=
  [.updateWithFutureToken (fun _ => 0) 2, .updateWithFutureToken (fun _ => 0) 2,
    .realizeFutureToken 7 none, .output, .realizeFutureToken 8 none, .output, .reset]

theorem run_streams_iff_two_ahead :
    SoundAlong [1, 2, 3] (.start (init 0 ⟨[1, 2, 3], ⟨0, 3⟩, 0, ⟨3, 3⟩, 3, 3, false⟩ 5 ⟨[8], []⟩ none :
      GenerationContext ℕ Unit)) twoAhead := by
  have hvalid : ∀ (ctx : GenerationContext ℕ Unit) (token : ℤ), ctx.vocabSize = none → 0 ≤ token →
      ctx.ValidToken token := fun ctx token hnone hnonneg => ⟨hnonneg, by simp [hnone]⟩
  refine (run_streams_iff rfl 0 5 ⟨[8], []⟩ none ?_).mpr ?_
  · exact ⟨nofun, nofun, nofun, nofun, nofun, nofun, fun _ => rfl, trivial⟩
  · exact ⟨trivial, trivial, .inr (hvalid _ _ rfl (by decide)), trivial,
      .inr (hvalid _ _ rfl (by decide)), trivial, fun _ => by decide, trivial⟩

/-- Two placeholders reach the maximal length of a request and are dropped by a reset; it is then
reported although there are three tokens of five. -/
theorem reset_reports_maximum_length :
    let h₀ : History ℕ Unit :=
      .start (init 0 ⟨[1, 2, 3], ⟨0, 3⟩, 0, ⟨3, 3⟩, 3, 3, false⟩ 5 ⟨[], []⟩ none)
    let ops : List (Op Unit) :=
      [.updateWithFutureToken (fun _ => 0) 2, .updateWithFutureToken (fun _ => 0) 2, .reset]
    let h := ops.foldl History.step h₀
    OutputFirst h₀ ops ∧ h.ctx.tokens.all = [1, 2, 3] ∧ h.ctx.pendingFutureCount = 0 ∧
      h.ended = false ∧ ∃ out ctx', toGenerationOutput h.ctx = .ok out ctx' ∧
        out.finalStatus = .maximumLength := by
  exact ⟨⟨nofun, nofun, fun _ => rfl, trivial⟩, rfl, rfl, rfl, _, _, rfl, rfl⟩

end GenerationContext
