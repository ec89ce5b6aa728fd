/-
The sizes of the batches.

The budgets of a batch have been charged with what is in it.  The budget for active tokens is kept
if windows are cut.  A request that uses up the budget for active tokens is never shown to the
budget for context lengths, so that one is kept only as long as such a request happens to fit.

* `Tallied` — the budgets are charged with the requests of the batch;
* `Safe` — a request that was offered to the budgets and either leaves tokens or fits;
* `Budgeted` — the CE requests of a batch keep to the total exactly when all that was offered is safe;
* `Placed.constructBatch` — the construction of the batches keeps every request in one place, if
  there is room, and the batches are `Budgeted`.
-/
import MojoMac.BatchInvariant

open Function StateSpec List OrderedDict

set_option linter.unusedSectionVars false

/-! ### The answers of the budgets -/

/-- What the budget for active tokens says to a candidate. -/
def Candidate.activeStatus (c : Candidate) : BudgetStatus :=
  match c.budget.tokenBudgets with
  | .active b :: _ => (b.statusAfterContext c.tokens .ce).1
  | _ => .available

/-- The capacity of the budget for active tokens. -/
def ReplicaBatch.activeCapacity {R : Type} (batch : ReplicaBatch R) : Option ℤ :=
  match batch.tokenBudget.tokenBudgets with
  | .active b :: _ => some b.capacity
  | _ => none

namespace TokenBudgetCollection

variable {b : ActiveTokenBudget} {budgets : List TokenBudget} {tokens : TokenArray}
  {requestType : RequestType}

/-- The other budgets are asked only if there are active tokens left. -/
theorem statusAfterContext_of_ne (h : (b.statusAfterContext tokens requestType).1 ≠ .available) :
    statusAfterContext ⟨.active b :: budgets⟩ tokens requestType =
      b.statusAfterContext tokens requestType := by
  rw [statusAfterContext, statusAfterContextIn, TokenBudget.statusAfterContext]
  cases hstatus : b.statusAfterContext tokens requestType with
  | mk status tokens' =>
    rw [hstatus] at h
    cases status with
    | available => exact absurd rfl h
    | exhausted | reached => rfl

theorem statusAfterContext_of_available
    (h : (b.statusAfterContext tokens requestType).1 = .available) :
    statusAfterContext ⟨.active b :: budgets⟩ tokens requestType =
      statusAfterContextIn requestType budgets (b.statusAfterContext tokens requestType).2 := by
  rw [statusAfterContext, statusAfterContextIn, TokenBudget.statusAfterContext]
  cases hstatus : b.statusAfterContext tokens requestType with
  | mk status tokens' =>
    rw [hstatus] at h
    obtain rfl : status = .available := h
    rfl

end TokenBudgetCollection

namespace TextBatchConstructor

variable {n : ℕ} {R N M L W T F : Type} [DecidableEq R] [DecidableEq N] [ToString R] [IntCast F]
  [Div F] [Sub F] [LE F] [DecidableLE F] [LT F] [DecidableLT F] {e : BatchSettings n R N W T F}
  {s s' : TextBatchConstructor n R N M L W T F} {A : Finset R}
  {batches : Fin (n + 1) → OrderedDict R RequestType} {clear : Prop} {r : R} {i : Fin (n + 1)}
  {candidates candidates' : List R} {batch batch' : ReplicaBatch R} {capacity : ℤ}

/-! ### What is in a batch -/

/-- The active tokens of the requests of a batch. -/
def activeTokens (batch : ReplicaBatch R) (s : TextBatchConstructor n R N M L W T F) : ℤ :=
  (batch.batch.keys.map fun r => (s.tokens r).activeLength).sum

variable (e)

/-- The page-aligned length of all requests of a batch. -/
def contextLength (batch : ReplicaBatch R) (s : TextBatchConstructor n R N M L W T F) : ℕ :=
  (batch.batch.keys.map fun r =>
    TotalContextTokenBudget.alignUp (s.tokens r).len e.services.pageSize).sum

/-- The budget for active tokens. -/
def activeBudget (capacity active : ℤ) (type : RequestType) : ActiveTokenBudget :=
  ⟨capacity, e.schedulerConfig.enableChunkedPrefill, RequestType.all,
    e.schedulerConfig.chunkedPrefillMinChunkSize, active, type⟩

/-- The budgets, that for context lengths charged with the length `total`. -/
def charged (b : ActiveTokenBudget) (total : ℕ) : TokenBudgetCollection :=
  ⟨.active b ::
    match e.schedulerConfig.maxBatchTotalTokens with
    | none => []
    | some max => [.total ⟨max, [.ce, .mixed], e.services.pageSize, total⟩]⟩

/-- The budgets are charged with what is in the batch. -/
def Tallied (capacity : ℤ) (batch : ReplicaBatch R)
    (s : TextBatchConstructor n R N M L W T F) : Prop :=
  ∃ type, batch.tokenBudget =
    charged e (activeBudget e capacity (activeTokens batch s) type) (contextLength e batch s)

/-- The request leaves active tokens, or fits into what the CE requests of the batch leave of the
total. -/
def Safe (total : ℤ) (c : Candidate) : Prop :=
  c.activeStatus = .reached →
    (TotalContextTokenBudget.alignUp c.tokens.len e.services.pageSize : ℤ) ≤ total - c.ceLength

variable {e}

/-- What is in the batch depends on the tokens of its requests only. -/
theorem activeTokens_congr (h : ∀ r ∈ batch.batch, s'.tokens r = s.tokens r) :
    activeTokens batch s' = activeTokens batch s := by
  rw [activeTokens, activeTokens]
  exact congrArg sum (map_congr_left fun r hr => by rw [h r hr])

theorem contextLength_congr (h : ∀ r ∈ batch.batch, s'.tokens r = s.tokens r) :
    contextLength e batch s' = contextLength e batch s := by
  rw [contextLength, contextLength]
  exact congrArg sum (map_congr_left fun r hr => by rw [h r hr])

theorem mem_of_mem_ceRequests (h : r ∈ batch.ceRequests) : r ∈ batch.batch := by
  obtain ⟨p, hp, rfl⟩ := mem_map.mp h
  exact mem_map_of_mem (mem_of_mem_filter hp)

theorem ceLength_congr (h : ∀ r ∈ batch.batch, s'.tokens r = s.tokens r) :
    ceLength e batch s' = ceLength e batch s := by
  rw [ceLength, ceLength]
  refine congrArg sum (map_congr_left fun r hr => ?_)
  rw [h r (mem_of_mem_ceRequests hr)]

/-- The CE requests are among those of the batch. -/
theorem ceLength_le (e : BatchSettings n R N W T F) (batch : ReplicaBatch R)
    (s : TextBatchConstructor n R N M L W T F) : ceLength e batch s ≤ contextLength e batch s := by
  rw [ceLength, contextLength]
  refine Sublist.sum_le_sum (Sublist.map _ ?_) fun _ _ => Nat.zero_le _
  exact Sublist.map _ filter_sublist

section Add

variable (hfresh : r ∉ batch.batch) (requestType : RequestType) (b : TokenBudgetCollection)
  (offered : List Candidate)

include hfresh

theorem ceRequests_add :
    (⟨batch.batch.set r requestType, b, offered⟩ : ReplicaBatch R).ceRequests =
      batch.ceRequests ++ if requestType = .ce then [r] else [] := by
  rw [ReplicaBatch.ceRequests, entries_set_of_not_mem hfresh, filter_append,
    map_append, ← ReplicaBatch.ceRequests]
  split_ifs with h <;> simp [h]

variable (hframe : ∀ r' ∈ batch.batch, s'.tokens r' = s.tokens r')

include hframe

/-- A request is added. -/
theorem activeTokens_add : activeTokens ⟨batch.batch.set r requestType, b, offered⟩ s' =
      activeTokens batch s + (s'.tokens r).activeLength := by
  rw [← activeTokens_congr hframe, activeTokens, activeTokens,
    keys_set_of_not_mem hfresh, map_append, sum_append]
  simp

theorem contextLength_add :
    contextLength e ⟨batch.batch.set r requestType, b, offered⟩ s' = contextLength e batch s +
        TotalContextTokenBudget.alignUp (s'.tokens r).len e.services.pageSize := by
  rw [← contextLength_congr hframe, contextLength, contextLength,
    keys_set_of_not_mem hfresh, map_append, sum_append]
  simp

theorem ceLength_add :
    ceLength e ⟨batch.batch.set r .ce, b, offered⟩ s' =
      ceLength e batch s + TotalContextTokenBudget.alignUp (s'.tokens r).len e.services.pageSize := by
  rw [← ceLength_congr hframe, ceLength, ceLength, ceRequests_add hfresh, if_pos rfl, map_append,
    sum_append]
  simp

/-- The budgets are charged with it. -/
theorem Tallied.add (h : Tallied e capacity batch s) :
    Tallied e capacity ⟨batch.batch.set r requestType,
      batch.tokenBudget.addToBudget (s'.tokens r) requestType, offered⟩ s' := by
  obtain ⟨type, htype⟩ := h
  rw [Tallied, activeTokens_add hfresh _ _ _ hframe, contextLength_add hfresh _ _ _ hframe]
  refine ⟨if type ≠ .mixed ∧ requestType ≠ type then requestType else type, ?_⟩
  rw [htype, charged, charged, TokenBudgetCollection.addToBudget]
  cases e.schedulerConfig.maxBatchTotalTokens with
  | none => rfl
  | some max =>
    simp only [map_cons, map_nil, TokenBudget.addToBudget,
      TotalContextTokenBudget.addToBudget, TotalContextTokenBudget.cost, Nat.cast_add]
    rfl

end Add

variable {b : ActiveTokenBudget} {t : TokenArray}

/-! ### What the budgets accept -/

section Charged

variable {requestType : RequestType} {total : ℕ}

/-- The tokens are left as the budget for active tokens has left them. -/
theorem charged_tokens : ((charged e b total).statusAfterContext t requestType).2 =
    (b.statusAfterContext t requestType).2 := by
  by_cases h : (b.statusAfterContext t requestType).1 = .available
  · rw [charged, TokenBudgetCollection.statusAfterContext_of_available h]
    cases e.schedulerConfig.maxBatchTotalTokens with
    | none => rfl
    | some max =>
      simp only [TokenBudgetCollection.statusAfterContextIn, TokenBudget.statusAfterContext]
      split <;> simp_all
  · exact congrArg Prod.snd (TokenBudgetCollection.statusAfterContext_of_ne h)

theorem charged_len : ((charged e b total).statusAfterContext t requestType).2.len = t.len := by
  rw [charged_tokens]
  exact (ActiveTokenBudget.statusAfterContext_spec _ t requestType).1

/-- An answer that the budget for active tokens gives alone. -/
theorem charged_status_of_ne (h : (b.statusAfterContext t requestType).1 ≠ .available) :
    ((charged e b total).statusAfterContext t requestType).1 =
      (b.statusAfterContext t requestType).1 :=
  congrArg Prod.fst (TokenBudgetCollection.statusAfterContext_of_ne h)

/-- If windows are cut, what is accepted fits. -/
theorem charged_active (hchunk : b.allowChunking = true) (htype : requestType ∈ b.applicableTypes)
    (h : ((charged e b total).statusAfterContext t requestType).1 ≠ .exhausted) :
    ((charged e b total).statusAfterContext t requestType).2.activeLength ≤ b.remaining := by
  have hactive : (b.statusAfterContext t requestType).1 ≠ .exhausted := by
    intro hex
    rw [charged_status_of_ne (by rw [hex]; simp)] at h
    exact h hex
  rw [charged_tokens]
  exact (ActiveTokenBudget.statusAfterContext_spec b t requestType).2.2 hchunk htype hactive

/-- The total is kept by a CE request that leaves active tokens. -/
theorem charged_total {max : ℤ} (hmax : e.schedulerConfig.maxBatchTotalTokens = some max)
    (hleft : (b.statusAfterContext t .ce).1 ≠ .reached)
    (h : ((charged e b total).statusAfterContext t .ce).1 ≠ .exhausted) :
    (TotalContextTokenBudget.alignUp t.len e.services.pageSize : ℤ) ≤ max - total := by
  have havailable : (b.statusAfterContext t .ce).1 = .available := by
    cases hstatus : (b.statusAfterContext t .ce).1 with
    | available => rfl
    | reached => exact absurd hstatus hleft
    | exhausted =>
      rw [charged_status_of_ne (by rw [hstatus]; simp)] at h
      exact absurd hstatus h
  have hlen := (ActiveTokenBudget.statusAfterContext_spec b t .ce).1
  rw [charged, hmax, TokenBudgetCollection.statusAfterContext_of_available havailable] at h
  set b' : TotalContextTokenBudget := ⟨max, [.ce, .mixed], e.services.pageSize, total⟩ with hb'
  have hnot : b'.statusAfterContext (b.statusAfterContext t .ce).2 .ce ≠ .exhausted := by
    intro hex
    simp only [TokenBudgetCollection.statusAfterContextIn, TokenBudget.statusAfterContext] at h
    rw [hb'] at hex
    rw [hex] at h
    exact h rfl
  have hcost := TotalContextTokenBudget.cost_le_remaining (b := b') (by simp [hb']) hnot
  rw [TotalContextTokenBudget.cost, hlen] at hcost
  exact hcost

end Charged

/-! ### Requests that are not in the batches -/

variable {j : Fin (n + 1)} {k : Queue}

/-- A request of a batch is in no queue but the TG queue of its replica. -/
theorem Placed.queue_of_mem (h : Placed e clear A batches s)
    (hr : r ∈ batches j) (hq : r ∈ (s.replicas i).queue k) : k = .tg ∧ i = j := by
  have hat : At s (outOf A batches) r (.queue k i) := hq
  have hA := h.mem hat
  obtain ⟨t, ht⟩ := exists_get? hr
  by_cases hce : t = .ce
  · exact absurd (h.unique hat (q := .out j) ⟨hA, hce ▸ ht⟩) (by simp)
  · have hplace := h.unique hat (q := .queue .tg j) (h.tg j r t ht hce hA)
    rwa [Place.queue.injEq] at hplace

variable {signal : Signal} {r' : R}

theorem CeOutcome.tokens (h : CeOutcome e i batch r s signal batch' s') (hr' : r' ≠ r) :
    s'.tokens r' = s.tokens r' := by
  cases h <;> simp [TextBatchConstructor.tokens, deferLora, TextBatchConstructor.requeue,
    TextBatchConstructor.touch, cordon, TextBatchConstructor.activate, hr']

/-- The loop around `alloc` touches its request and the candidates. -/
theorem TgAllocated.tokens {result : Option (List R)}
    (h : TgAllocated i r candidates s result s') (hr' : r' ≠ r)
    (hcand : r' ∉ candidates) : s'.tokens r' = s.tokens r' := by
  induction h with
  | allocated candidates s w t hactive hlen => exact tokens_touch_of_ne hr' ..
  | stuck candidates s w ctx => exact tokens_touch_of_ne hr' ..
  | preempted candidates oldest s s' w w' t ctx result hactive hlen hrest ih =>
    rw [mem_append, not_or, mem_singleton] at hcand
    exact ((ih hcand.1).trans (tokens_touch_of_ne hcand.2 w' ctx)).trans (tokens_touch_of_ne hr' w _)

/-- The window of the request does not get longer. -/
theorem TgAllocated.self
    (h : TgAllocated i r candidates s (some candidates') s') (hcand : r ∉ candidates) :
    (s'.tokens r).activeLength ≤ (s.tokens r).activeLength := by
  generalize hresult : some candidates' = result at h
  induction h with
  | allocated candidates s w t hactive hlen =>
    rwa [tokens_touch_self]
  | stuck candidates s w ctx => simp at hresult
  | preempted candidates oldest s s' w w' t ctx result hactive hlen hrest ih =>
    rw [mem_append, not_or, mem_singleton] at hcand
    have hself : TextBatchConstructor.tokens (((s.touch r w { s.contexts r with tokens := t }).touch oldest w' ctx).requeue i oldest) r = t :=
      (tokens_touch_of_ne hcand.2 w' ctx).trans (tokens_touch_self w _)
    exact (hself ▸ ih hcand.1 hresult).trans hactive

theorem TgOutcome.tokens (h : TgOutcome i batch r candidates s candidates' batch' s') (hr' : r' ≠ r)
    (hcand : r' ∉ candidates) : s'.tokens r' = s.tokens r' := by
  have htouch : ∀ w ctx, (s.touch r w ctx).tokens r' = s.tokens r' := tokens_touch_of_ne hr'
  cases h with
  | preempted w ctx => exact htouch w ctx
  | refused ctx => exact htouch s.world ctx
  | stuck t s' halloc => exact (halloc.tokens hr' hcand).trans (htouch ..)
  | added candidates' s' hstatus halloc => exact (halloc.tokens hr' hcand).trans (htouch ..)

/-! ### The invariant of a batch -/

/-- Every request that was offered to the budgets is safe. -/
def AllSafe (e : BatchSettings n R N W T F) (batch : ReplicaBatch R) : Prop :=
  ∀ max, e.schedulerConfig.maxBatchTotalTokens = some max → ∀ c ∈ batch.offered, Safe e max c

/-- The budgets are charged with the batch; the active tokens are within the capacity, and the CE
requests within the total exactly when every request that was offered is safe. -/
structure Budgeted (e : BatchSettings n R N W T F) (capacity : ℤ) (batch : ReplicaBatch R)
    (s : TextBatchConstructor n R N M L W T F) : Prop where
  tallied : Tallied e capacity batch s
  active : e.schedulerConfig.enableChunkedPrefill = true → activeTokens batch s ≤ capacity
  total : ∀ max, e.schedulerConfig.maxBatchTotalTokens = some max →
    ((batch.ceRequests ≠ [] → (ceLength e batch s : ℤ) ≤ max) ↔ ∀ c ∈ batch.offered, Safe e max c)

theorem Budgeted.congr (h : Budgeted e capacity batch s)
    (htokens : ∀ r ∈ batch.batch, s'.tokens r = s.tokens r) : Budgeted e capacity batch s' := by
  refine ⟨?_, ?_, ?_⟩
  · rw [Tallied, activeTokens_congr htokens, contextLength_congr htokens]
    exact h.tallied
  · rw [activeTokens_congr htokens]
    exact h.active
  · rw [ceLength_congr htokens]
    exact h.total

/-- Without CE requests all that was offered is safe. -/
theorem Budgeted.allSafe (h : Budgeted e capacity batch s)
    (hce : batch.ceRequests = []) : AllSafe e batch :=
  fun max hmax => (h.total max hmax).mp fun hne => absurd hce hne

theorem activeStatus_charged {total k : ℕ} :
    Candidate.activeStatus ⟨t, charged e b total, k⟩ = (b.statusAfterContext t .ce).1 := rfl

/-- A request that does not use up the budgets is safe. -/
theorem Tallied.safe (h : Tallied e capacity batch s)
    (hstatus : (batch.tokenBudget.statusAfterContext t .ce).1 ≠ .reached) (max : ℤ) (k : ℕ) :
    Safe e max ⟨t, batch.tokenBudget, k⟩ := by
  obtain ⟨type, htype⟩ := h
  intro hreached
  rw [htype] at hstatus hreached
  rw [activeStatus_charged] at hreached
  rw [charged_status_of_ne (by rw [hreached]; simp)] at hstatus
  exact absurd hreached hstatus

/-- A CE request joins the batch. -/
theorem Budgeted.accept (h : Budgeted e capacity batch s)
    (hsafe : AllSafe e batch) (hfresh : r ∉ batch.batch)
    (hframe : ∀ r' ∈ batch.batch, s'.tokens r' = s.tokens r')
    (hstatus : (batch.tokenBudget.statusAfterContext t .ce).1 ≠ .exhausted)
    (hr : s'.tokens r = (batch.tokenBudget.statusAfterContext t .ce).2) :
    Budgeted e capacity ⟨batch.batch.set r .ce, batch.tokenBudget.addToBudget (s'.tokens r) .ce,
      batch.offered ++ [⟨t, batch.tokenBudget, ceLength e batch s⟩]⟩ s' := by
  obtain ⟨type, htype⟩ := h.tallied
  refine ⟨h.tallied.add hfresh .ce _ hframe, fun hchunk => ?_, fun max hmax => ?_⟩
  · rw [activeTokens_add hfresh _ _ _ hframe, hr]
    rw [htype] at hstatus ⊢
    have hfit := charged_active hchunk (by simp [activeBudget, RequestType.all]) hstatus
    simp only [ActiveTokenBudget.remaining, activeBudget] at hfit ⊢
    omega
  have hlen : (s'.tokens r).len = t.len := by
    rw [hr, htype]
    exact charged_len
  rw [ceLength_add hfresh _ _ hframe, ceRequests_add hfresh, if_pos rfl, hlen]
  have hne : batch.ceRequests ++ [r] ≠ [] := by simp
  rw [imp_iff_right hne, forall_mem_append, forall_mem_singleton,
    and_iff_right (hsafe max hmax), Safe]
  rw [htype] at hstatus ⊢
  rw [activeStatus_charged]
  dsimp only
  by_cases hreached : ((activeBudget e capacity (activeTokens batch s) type).statusAfterContext t
      .ce).1 = .reached
  · -- the budget for context lengths was not asked
    rw [Nat.cast_add]
    constructor
    · intro hfit _
      omega
    · intro hfit
      have := hfit hreached
      omega
  · have hfit := charged_total hmax hreached hstatus
    have hle := ceLength_le e batch s
    rw [Nat.cast_add]
    exact ⟨fun _ hcontra => absurd hcontra hreached, fun _ => by omega⟩

/-- **An iteration of the CE loop.**  A request that is not safe ends the loop. -/
theorem Budgeted.ceOutcome
    (h : Budgeted e capacity batch s) (hsafe : AllSafe e batch) (hfresh : r ∉ batch.batch)
    (hout : CeOutcome e i batch r s signal batch' s') :
    Budgeted e capacity batch' s' ∧ (signal = .next → AllSafe e batch') := by
  have hne : ∀ r' ∈ batch.batch, r' ≠ r := fun r' hr' => ne_of_mem_of_not_mem hr' hfresh
  have hframe : ∀ r' ∈ batch.batch, s'.tokens r' = s.tokens r' :=
    fun r' hr' => hout.tokens (hne r' hr')
  have htouch : ∀ w ctx, ceLength e batch (s.touch r w ctx) = ceLength e batch s :=
    fun w ctx => ceLength_congr fun r' hr' => tokens_touch_of_ne (hne r' hr') w ctx
  cases hout with
  | deferred manager hmanager hno => exact ⟨h.congr hframe, fun _ => hsafe⟩
  | unserved signal w ctx hsignal | cordoned w ctx t => exact ⟨h.congr hframe, fun _ => hsafe⟩
  | refused w w' t ctx hstatus =>
    have hkeep := h.congr hframe
    refine ⟨⟨hkeep.tallied, hkeep.active, fun max hmax => ?_⟩, by simp⟩
    have hnew := h.tallied.safe (t := t) (by simp [hstatus]) max
      (ceLength e batch (s.touch r w { s.contexts r with tokens := t }))
    rw [forall_mem_append, forall_mem_singleton, and_iff_left hnew]
    exact hkeep.total max hmax
  | admitted w t manager loras hstatus hsame hloras =>
    have hself : ((s.touch r w { s.contexts r with
          tokens := (batch.tokenBudget.statusAfterContext t .ce).2 }).activate i manager loras).tokens r =
        (batch.tokenBudget.statusAfterContext t .ce).2 := tokens_touch_self w _
    have haccept := h.accept hsafe hfresh hframe hstatus hself
    rw [hself] at haccept
    rw [htouch]
    refine ⟨haccept, fun hnext max hmax c hc => ?_⟩
    rcases mem_append.mp hc with hold | hnew
    · exact hsafe max hmax c hold
    obtain rfl := mem_singleton.mp hnew
    -- the loop goes on, so the budgets were not used up
    refine h.tallied.safe (fun hreached => ?_) max _
    simp [hreached] at hnext

/-- **An iteration of the TG loop.** -/
theorem Budgeted.tgOutcome (h : Budgeted e capacity batch s)
    (hce : batch.ceRequests = []) (hcand : Candidates (r :: candidates) batch.batch i s)
    (hout : TgOutcome i batch r candidates s candidates' batch' s') :
    Budgeted e capacity batch' s' ∧ batch'.ceRequests = [] := by
  have hnot : ∀ c ∈ r :: candidates, c ∉ batch.batch := fun c hc =>
    get?_eq_none.mp (hcand.fresh c hc)
  have hframe : ∀ r' ∈ batch.batch, s'.tokens r' = s.tokens r' := by
    intro r' hr'
    refine hout.tokens ?_ ?_
    · rintro rfl
      exact hnot r' mem_cons_self hr'
    · exact fun hmem => hnot r' (mem_cons_of_mem r hmem) hr'
  cases hout with
  | preempted w ctx | refused ctx | stuck t s' halloc => exact ⟨h.congr hframe, hce⟩
  | added candidates' s' hstatus halloc =>
    have hfresh := hnot r mem_cons_self
    have hce' : (addToBatch batch r .tg s').ceRequests = [] := by
      rw [addToBatch, ceRequests_add hfresh, hce]
      rfl
    have hactive := halloc.self (nodup_cons.mp hcand.nodup).1
    rw [tokens_touch_self] at hactive
    replace hactive : (s'.tokens r).activeLength ≤
      (batch.tokenBudget.statusAfterContext (s.tokens r) .tg).2.activeLength := hactive
    refine ⟨⟨h.tallied.add hfresh .tg _ hframe, fun hchunk => ?_, fun max hmax => ?_⟩, hce'⟩
    · rw [addToBatch, activeTokens_add hfresh _ _ _ hframe]
      obtain ⟨type, htype⟩ := h.tallied
      rw [htype] at hstatus hactive
      have hfit := charged_active hchunk (by simp [activeBudget, RequestType.all]) hstatus
      simp only [ActiveTokenBudget.remaining, activeBudget] at hfit hactive
      omega
    · exact iff_of_true (fun hne => absurd hce' hne) (h.allSafe hce max hmax)

/-! ### The batch of a replica -/

/-- The batch of the replica `i` while it is built, next to the batches of the others. -/
structure Building (e : BatchSettings n R N W T F) (clear : Prop) (A : Finset R)
    (batches : Fin (n + 1) → OrderedDict R RequestType) (i : Fin (n + 1)) (capacity : ℤ)
    (s₀ s₁ : TextBatchConstructor n R N M L W T F) (batch : ReplicaBatch R)
    (s : TextBatchConstructor n R N M L W T F) : Prop where
  kept : Kept e clear A (Function.update batches i batch.batch) s₀ s
  budgeted : Budgeted e capacity batch s
  others : ∀ j ≠ i, ∀ r ∈ batches j, s.tokens r = s₁.tokens r

variable {s₀ s₁ : TextBatchConstructor n R N M L W T F}

section

variable (h : Building e clear A batches i capacity s₀ s₁ batch s)

include h

/-- A request of a queue is in no other batch. -/
theorem Building.not_mem (hr : r ∈ (s.replicas i).queue k) (hj : j ≠ i) : r ∉ batches j := by
  intro hmem
  have hmem' : r ∈ update batches i batch.batch j := by rwa [update_of_ne hj]
  exact hj (h.kept.placed.queue_of_mem hmem' hr).2.symm

theorem Building.addCeRequests (hsafe : AllSafe e batch) : Spec (addCeRequests e i batch) s
      (fun batch' s' => Building e clear A batches i capacity s₀ s₁ batch' s') fun _ _ => True := by
  rw [TextBatchConstructor.addCeRequests]
  simp only [spec_bind, spec_get]
  split
  · exact h
  rw [spec_bind]
  refine Spec.mono_ok (ceLoop_rule (J := fun signal batch s =>
    Building e clear A batches i capacity s₀ s₁ batch s ∧ (signal = .next → AllSafe e batch)) ?_
    (fun _ _ hJ => ⟨hJ.1, by simp⟩) _ _ ⟨h, fun _ => hsafe⟩) ?_
  · rintro batch s r rest signal batch' s' ⟨hbuilding, hsafe⟩ hpop hout
    have hfront : At s (fun _ => ∅) r (.queue .ce i) := At.of_front hpop
    have hfresh : r ∉ batch.batch := by
      intro hmem
      have hmem' : r ∈ update batches i batch.batch i := by rwa [update_self]
      exact absurd (hbuilding.kept.placed.queue_of_mem hmem' hfront).1 (by simp)
    have hbudgeted : Budgeted e capacity batch (take i rest s) :=
      hbuilding.budgeted.congr fun _ _ => rfl
    obtain ⟨hbudgeted', hnext⟩ := hbudgeted.ceOutcome (hsafe rfl) hfresh hout
    refine ⟨⟨hbuilding.kept.ceOutcome hpop hout, hbudgeted', ?_⟩, hnext⟩
    intro j hj r' hr'
    rw [hout.tokens]
    · exact hbuilding.others j hj r' hr'
    · rintro rfl
      exact hbuilding.not_mem hfront hj hr'
  · rintro ⟨signal, batch'⟩ s' ⟨⟨⟨⟨hplaced, hroom, hfailed⟩, hbudgeted, hothers⟩, -⟩, -⟩
    split
    · -- the loop was not left early
      rw [spec_bind, updateDeferredLoraRequests, onReplica, spec_modify]
      exact ⟨⟨hplaced.restore i, hroom, hfailed⟩, hbudgeted.congr fun _ _ => rfl, hothers⟩
    · exact ⟨⟨hplaced, hroom, hfailed⟩, hbudgeted, hothers⟩

theorem Building.addTgRequests (hempty : batch.batch = .empty) :
    Spec (addTgRequests e i batch) s (fun batch' s' =>
      Building e clear A batches i capacity s₀ s₁ batch' s' ∧ batch'.ceRequests = [])
      fun _ _ => True := by
  rw [TextBatchConstructor.addTgRequests, spec_get_bind]
  refine Spec.mono_ok (tgLoop_rule (J := fun candidates batch s =>
    Building e clear A batches i capacity s₀ s₁ batch s ∧ batch.ceRequests = [] ∧
      Candidates candidates batch.batch i s) ?_ _ ⟨h, ?_, ?_, ?_, ?_⟩) ?_
  · rintro batch r candidates s candidates' batch' s' ⟨hbuilding, hce, hcand⟩ - hout
    obtain ⟨hkept, hcand'⟩ := hbuilding.kept.tgOutcome hcand hout
    obtain ⟨hbudgeted, hce'⟩ := hbuilding.budgeted.tgOutcome hce hcand hout
    refine ⟨⟨hkept, hbudgeted, fun j hj r' hr' => ?_⟩, hce', hcand'⟩
    have hne : ∀ c ∈ r :: candidates, r' ≠ c := by
      rintro c hc rfl
      exact hbuilding.not_mem (k := .tg) (hcand.tg r' hc) hj hr'
    rw [hout.tokens (hne r mem_cons_self) fun hmem => hne r' (mem_cons_of_mem r hmem) rfl]
    exact hbuilding.others j hj r' hr'
  · rw [ReplicaBatch.ceRequests, hempty]
    rfl
  · exact (s.replicas i).tgReqs.nodup_keys
  · exact fun c hc => hc
  · intro c _
    rw [hempty]
    rfl
  · rintro batch' s' ⟨-, hbuilding, hce, -⟩
    exact ⟨hbuilding, hce⟩

end

theorem budgeted_empty (capacity : Option ℤ) (hcapacity : ∀ c ∈ capacity, 0 ≤ c) :
    Budgeted e (capacity.getD e.schedulerConfig.targetTokensPerBatchCe)
      ⟨.empty, createNewTokenBudget e capacity, []⟩ s := by
  refine ⟨⟨.unknown, ?_⟩, fun _ => ?_, fun max _ => iff_of_true (fun hne => absurd rfl hne) (by simp)⟩
  · rw [createNewTokenBudget, charged]
    cases e.schedulerConfig.maxBatchTotalTokens <;> rfl
  · cases capacity with
    | none => exact Int.natCast_nonneg _
    | some c => exact hcapacity c rfl

theorem ceCapacity_nonneg : ∀ c ∈ ceCapacity e s i, 0 ≤ c := by
  intro c hc
  rw [ceCapacity] at hc
  cases hquota : s.ceStepQuota with
  | none => simp [hquota] at hc
  | some quota =>
    simp only [hquota, Option.mem_def, Option.ite_none_right_eq_some] at hc
    have := Option.some.inj hc.2
    omega

theorem batch_eq_empty (h : batch.length = 0) : batch.batch = .empty :=
  eq_empty_of_keys (length_eq_zero_iff.mp ((length_keys _).trans h))

/-- The batch of a replica keeps to its budgets if what was offered is safe, and the requests of the
other batches are left alone. -/
theorem Kept.constructReplicaBatch (h : Kept e clear A batches s₀ s) (hempty : batches i = .empty)
    (override : Option RequestType) : Spec (constructReplicaBatch e override i) s
      (fun batch s' => ∃ capacity, Building e clear A batches i capacity s₀ s batch s')
      fun _ _ => True := by
  rw [TextBatchConstructor.constructReplicaBatch, spec_get_bind]
  have hstart : Building e clear A batches i
      ((ceCapacity e s i).getD e.schedulerConfig.targetTokensPerBatchCe) s₀ s
      ⟨.empty, createNewTokenBudget e (ceCapacity e s i), []⟩ s := by
    refine ⟨?_, budgeted_empty _ ceCapacity_nonneg, fun _ _ _ _ => rfl⟩
    rw [← hempty, update_eq_self]
    exact h
  split
  · rw [spec_bind]
    refine Spec.mono_ok (hstart.addCeRequests fun _ _ _ hc => absurd hc not_mem_nil) ?_
    intro batch s' hbuilding
    split_ifs with hcond
    · refine Spec.mono_ok (hbuilding.addTgRequests (batch_eq_empty hcond.1)) ?_
      exact fun batch' s'' hbuilding' => ⟨_, hbuilding'.1⟩
    · exact ⟨_, hbuilding⟩
  · rw [spec_bind]
    refine Spec.mono_ok (hstart.addTgRequests rfl) ?_
    rintro batch s' ⟨hbuilding, hce⟩
    split
    · refine Spec.mono_ok (hbuilding.addCeRequests (hbuilding.budgeted.allSafe hce)) ?_
      exact fun batch' s'' hbuilding' => ⟨_, hbuilding'⟩
    · exact ⟨_, hbuilding⟩
  · exact ⟨_, hstart⟩

/-! ### The batches -/

theorem Tallied.activeCapacity (h : Tallied e capacity batch s) :
    batch.activeCapacity = some capacity := by
  obtain ⟨type, htype⟩ := h
  rw [ReplicaBatch.activeCapacity, htype]
  rfl

/-- **The construction of a batch keeps every admitted request in one place, and charges the budgets
of the batches with what is in them.** -/
theorem Placed.constructBatch (h : Placed e clear A (fun _ => .empty) s) (hroom : clear → Room e A s) :
    Spec (constructBatch e) s (fun batches s' =>
      Placed e clear (A \ newlyFailed s s') (fun i => (batches i).batch) s' ∧
        ∀ i, ∃ capacity, Budgeted e capacity (batches i) s') fun _ _ => True := by
  rw [TextBatchConstructor.constructBatch, spec_bind]
  refine Returns.mono h.readmitted ?_
  rintro _ s₁ ⟨h₁, hmanager₁, hfailed₁⟩
  rw [spec_bind]
  refine Returns.mono h₁.promote ?_
  rintro _ s₂ ⟨h₂, hmanager₂⟩
  rw [spec_bind]
  refine Spec.mono_ok h₂.plan ?_
  rintro _ s₃ ⟨h₃, hmanager₃, hfailed₃⟩
  have hnew : ∀ s', s'.grammarFailed = s₃.grammarFailed → newlyFailed s s' = newlyFailed s₁ s₂ := by
    intro s' hs'
    rw [newlyFailed, newlyFailed, hs', hfailed₃, hfailed₁]
  have hroom₃ : clear → Room e (A \ newlyFailed s₁ s₂) s₃ := fun hclear =>
    (hroom hclear).of_manager Finset.sdiff_subset (hmanager₃.trans (hmanager₂.trans hmanager₁))
  rw [spec_get_bind]
  -- the replicas that are still to come have no batch yet
  refine Spec.mono_ok (Spec.foldlM (E := fun _ _ => True) (I := fun done batches s' =>
    Kept e clear (A \ newlyFailed s₁ s₂) (fun i => (batches i).batch) s₃ s' ∧
      (∀ i ∈ done, ∃ capacity, Budgeted e capacity (batches i) s') ∧
      ∀ i, i ∉ done → (batches i).batch = .empty) _ _ ?_
    ⟨⟨h₃, hroom₃, rfl⟩, by simp, fun _ _ => rfl⟩) ?_
  · rintro done i todo hfin batches s' ⟨hkept, hdone, hempty⟩
    have hi : i ∉ done := not_mem_done (nodup_finRange _) hfin
    rw [spec_bind]
    refine Spec.mono_ok (hkept.constructReplicaBatch (hempty i hi) _) ?_
    rintro batch s'' ⟨capacity, hbuilding⟩
    have hbatches : (fun j => (update batches i batch j).batch) =
        update (fun j => (batches j).batch) i batch.batch :=
      funext fun j => Function.apply_update (fun _ => ReplicaBatch.batch) batches i batch j
    rw [spec_pure, hbatches]
    refine ⟨hbuilding.kept, fun j hj => ?_, fun j hj => ?_⟩
    · by_cases hji : j = i
      · subst hji
        rw [update_self]
        exact ⟨capacity, hbuilding.budgeted⟩
      · rw [mem_append, mem_singleton, or_iff_left hji] at hj
        obtain ⟨capacity', hbudgeted⟩ := hdone j hj
        rw [update_of_ne hji]
        exact ⟨capacity', hbudgeted.congr (hbuilding.others j hji)⟩
    · rw [mem_append, mem_singleton, not_or] at hj
      rw [update_of_ne hj.2]
      exact hempty j hj.1
  · rintro batches s' ⟨hkept, hdone, -⟩
    rw [hnew s' hkept.failed]
    exact ⟨hkept.placed, fun i => hdone i (mem_finRange i)⟩

end TextBatchConstructor
