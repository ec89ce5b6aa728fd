/-
What an iteration of the loops of the batch constructor can do.

* `touch`, `take`, `requeue`, `deferLora`, `cordon`, `activate` — the changes of the state;
* `CeOutcome`, `TgOutcome` — the outcomes of an iteration of `_add_ce_requests` and
  `_add_tg_requests`;
* `ceLoop_rule`, `tgLoop_rule` — what every outcome keeps holds after the loop.
-/
import MojoMac.BatchConstructor

open Function StateSpec

set_option linter.unusedSectionVars false

namespace TextBatchConstructor

variable {n : ℕ} {R N M L W T F : Type} [DecidableEq R] [DecidableEq N]
  {s s' : TextBatchConstructor n R N M L W T F} {r : R} {i : Fin (n + 1)}

/-! ### Changes of the state -/

/-- The context of a request has changed, and the world. -/
def touch (r : R) (w : W) (ctx : GenerationContext R L)
    (s : TextBatchConstructor n R N M L W T F) : TextBatchConstructor n R N M L W T F :=
  { s with world := w, contexts := Function.update s.contexts r ctx }

/-- The request at the front of the CE queue was taken. -/
def take (i : Fin (n + 1)) (rest : OrderedDict R Unit)
    (s : TextBatchConstructor n R N M L W T F) : TextBatchConstructor n R N M L W T F :=
  { s with replicas := Function.update s.replicas i { s.replicas i with ceReqs := rest } }

/-- A request goes to the front of the CE queue. -/
def requeue (i : Fin (n + 1)) (r : R) (s : TextBatchConstructor n R N M L W T F) :
    TextBatchConstructor n R N M L W T F :=
  { s with replicas := Function.update s.replicas i { s.replicas i with
      tgReqs := (s.replicas i).tgReqs.erase r
      ceReqs := ((s.replicas i).ceReqs.set r ()).moveToFront r } }

/-- A request waits for a slot for its adapter. -/
def deferLora (i : Fin (n + 1)) (r : R) (s : TextBatchConstructor n R N M L W T F) :
    TextBatchConstructor n R N M L W T F :=
  { s with replicas := Function.update s.replicas i { s.replicas i with
      deferredLoraRequests := (s.replicas i).deferredLoraRequests.set r () } }

/-- A request waits for its blocks to be loaded. -/
def cordon (i : Fin (n + 1)) (r : R) (t : T) (s : TextBatchConstructor n R N M L W T F) :
    TextBatchConstructor n R N M L W T F :=
  { s with onloadingReqs := s.onloadingReqs.set r (i, t) }

/-- Adapters were activated. -/
def activate (i : Fin (n + 1)) (manager : Option (LoRAManager N M)) (loras : Finset N)
    (s : TextBatchConstructor n R N M L W T F) : TextBatchConstructor n R N M L W T F :=
  { s with
    loraManager := manager
    replicas := Function.update s.replicas i { s.replicas i with activeLoras := loras } }

/-- What the new queues of a replica have kept is the same for all replicas. -/
theorem replica_update {α : Type} (f : ReplicaRequests R N → α) {q : ReplicaRequests R N}
    (h : f q = f (s.replicas i)) (j : Fin (n + 1)) :
    f (update s.replicas i q j) = f (s.replicas j) := by
  rw [Function.apply_update (fun _ => f), h, update_eq_self]

@[simp] theorem tokens_touch_self (w : W) (ctx : GenerationContext R L) :
    (touch r w ctx s).tokens r = ctx.tokens := by
  simp [tokens, touch]

theorem tokens_touch_of_ne {r' : R} (h : r' ≠ r) (w : W) (ctx : GenerationContext R L) :
    (touch r w ctx s).tokens r' = s.tokens r' := by
  simp [tokens, touch, h]

theorem touch_touch (w w' : W) (ctx ctx' : GenerationContext R L) :
    touch r w ctx (touch r w' ctx' s) = touch r w ctx s := by
  simp only [touch, update_idem]

/-- The manager has the same adapters and the same number of slots. -/
def SameLoras (m m' : Option (LoRAManager N M)) : Prop :=
  m'.map LoRAManager.loras = m.map LoRAManager.loras ∧
    m'.map LoRAManager.maxNumLoras = m.map LoRAManager.maxNumLoras

theorem SameLoras.refl (m : Option (LoRAManager N M)) : SameLoras m m := ⟨rfl, rfl⟩

theorem activateAdapter_same (m : LoRAManager N M) (name : N) :
    Spec (LoRAManager.activateAdapter name) m
      (fun _ m' => SameLoras (some m) (some m')) fun _ _ => True := by
  rw [LoRAManager.activateAdapter, spec_get_bind]
  split
  · trivial
  rw [spec_focus]
  rw [Spec]
  split
  · exact ⟨rfl, rfl⟩
  · trivial

section Operations

variable [ToString R] [IntCast F] [Div F] [Sub F] [LE F] [DecidableLE F] [LT F] [DecidableLT F]
  {e : BatchSettings n R N W T F}

/-! ### The operations -/

theorem alloc_spec :
    Spec (alloc e r) s (fun _ s' => ∃ w t, s' = touch r w { s.contexts r with tokens := t } s ∧
        t.activeLength ≤ (s.tokens r).activeLength ∧ t.len = (s.tokens r).len) fun _ _ => True := by
  rw [alloc]
  simp only [spec_bind, spec_get, onWorld, spec_modify]
  split
  · rw [onContext, spec_bind, spec_focus, GenerationContext.onTokens, spec_focus]
    refine Spec.mono_ok (TokenArray.skipProcessing_spec _ _) ?_
    rintro _ _ ⟨-, hactive, start, rfl⟩
    exact ⟨_, _, rfl, hactive, rfl⟩
  · refine ⟨(e.services.alloc r (s.tokens r) s.world).2.2, s.tokens r, ?_, le_rfl, rfl⟩
    rw [touch]
    congr 1
    exact (update_eq_self r s.contexts).symm

theorem returnToRequestQueue_spec :
    Spec (returnToRequestQueue e r i) s (fun _ s' => ∃ w ctx, s' = requeue i r (touch r w ctx s))
      fun _ _ => True := by
  have hrest : ∀ w, Spec (do
      onWorld (e.services.releasePipeline r)
      onContext r GenerationContext.reset
      onReplica i fun q => { q with
        tgReqs := q.tgReqs.erase r
        ceReqs := (q.ceReqs.set r ()).moveToFront r }) { s with world := w }
      (fun _ s' => ∃ w ctx, s' = requeue i r (touch r w ctx s)) fun _ _ => True := by
    intro w
    simp only [spec_bind, onWorld, spec_modify, onContext, spec_focus]
    rw [Spec]
    split
    · exact ⟨_, _, rfl⟩
    · trivial
  rw [returnToRequestQueue, spec_get_bind]
  split
  · exact hrest _
  · exact hrest _

theorem statusAfterContext_returns {budget : TokenBudgetCollection} {requestType : RequestType} :
    Returns (statusAfterContext budget r requestType) s fun status s' =>
      status = (budget.statusAfterContext (s.tokens r) requestType).1 ∧
        s' = touch r s.world { s.contexts r with
          tokens := (budget.statusAfterContext (s.tokens r) requestType).2 } s :=
  ⟨rfl, rfl⟩

theorem addActiveLora_spec :
    Spec (addActiveLora e r i) s (fun _ s' => ∃ manager loras, s' = activate i manager loras s ∧
        SameLoras s.loraManager manager ∧ (loras = (s.replicas i).activeLoras ∨
          s.isLora (e.modelName r) = true ∧
            loras = insert (e.modelName r) (s.replicas i).activeLoras)) fun _ _ => True := by
  have hsame : s = activate i s.loraManager (s.replicas i).activeLoras s := by
    change s = { s with replicas := update s.replicas i (s.replicas i) }
    rw [update_eq_self]
  rw [addActiveLora, spec_get_bind]
  cases hmanager : s.loraManager with
  | none => exact ⟨none, _, hmanager ▸ hsame, SameLoras.refl _, Or.inl rfl⟩
  | some manager =>
    simp only
    split_ifs with hlora
    · rw [spec_bind, spec_focus]
      refine Spec.mono_ok (activateAdapter_same manager (e.modelName r)) ?_
      intro _ m' hm'
      rw [onReplica, spec_modify]
      refine ⟨some m', _, rfl, hm', Or.inr ⟨?_, rfl⟩⟩
      rw [isLora, hmanager]
      exact hlora
    · exact ⟨some manager, _, hmanager ▸ hsame, SameLoras.refl _, Or.inl rfl⟩

theorem canAllocateLora_returns : Returns (canAllocateLora e r i) s fun allowed s' =>
      allowed = true ∧ s' = s ∨ allowed = false ∧ s' = deferLora i r s ∧
        ∃ manager, s.loraManager = some manager ∧
          canAllocateLoraRequest (e.modelName r) (s.replicas i).activeLoras manager = false := by
  rw [Returns, canAllocateLora, spec_get_bind]
  cases hmanager : s.loraManager with
  | none => exact Or.inl ⟨rfl, rfl⟩
  | some manager =>
    simp only
    split_ifs with hno
    · exact Or.inl ⟨rfl, rfl⟩
    · exact Or.inr ⟨rfl, rfl, manager, rfl, by simpa using hno⟩

/-! ### Context encoding -/

/-- The outcomes of an iteration for the request `r`, which was taken from the queue. -/
inductive CeOutcome (e : BatchSettings n R N W T F) (i : Fin (n + 1)) (batch : ReplicaBatch R)
    (r : R) (s : TextBatchConstructor n R N M L W T F) :
    Signal → ReplicaBatch R → TextBatchConstructor n R N M L W T F → Prop
  /-- No slot for its adapter. -/
  | deferred (manager : LoRAManager N M) (hmanager : s.loraManager = some manager)
      (hno : canAllocateLoraRequest (e.modelName r) (s.replicas i).activeLoras manager = false) :
      CeOutcome e i batch r s .next batch (deferLora i r s)
  /-- No budget or no blocks. -/
  | unserved (signal : Signal) (w : W) (ctx : GenerationContext R L) (hsignal : signal ≠ .next) :
      CeOutcome e i batch r s signal batch (requeue i r (touch r w ctx s))
  /-- It does not fit into the budgets. -/
  | refused (w w' : W) (t : TokenArray) (ctx : GenerationContext R L)
      (hstatus : (batch.tokenBudget.statusAfterContext t .ce).1 = .exhausted) :
      CeOutcome e i batch r s .exit
        { batch with offered := batch.offered ++ [⟨t, batch.tokenBudget,
          ceLength e batch (touch r w { s.contexts r with tokens := t } s)⟩] }
        (requeue i r (touch r w' ctx s))
  /-- Its blocks are being loaded. -/
  | cordoned (w : W) (ctx : GenerationContext R L) (t : T) :
      CeOutcome e i batch r s .next batch (cordon i r t (touch r w ctx s))
  /-- It joins the batch. -/
  | admitted (w : W) (t : TokenArray) (manager : Option (LoRAManager N M)) (loras : Finset N)
      (hstatus : (batch.tokenBudget.statusAfterContext t .ce).1 ≠ .exhausted)
      (hsame : SameLoras s.loraManager manager)
      (hloras : loras = (s.replicas i).activeLoras ∨ s.isLora (e.modelName r) = true ∧
        loras = insert (e.modelName r) (s.replicas i).activeLoras) :
      CeOutcome e i batch r s
        (if (batch.tokenBudget.statusAfterContext t .ce).1 = .reached then .leave else .next)
        ⟨batch.batch.set r .ce, batch.tokenBudget.addToBudget
            (batch.tokenBudget.statusAfterContext t .ce).2 .ce,
          batch.offered ++ [⟨t, batch.tokenBudget,
            ceLength e batch (touch r w { s.contexts r with tokens := t } s)⟩]⟩
        (activate i manager loras (touch r w { s.contexts r with
          tokens := (batch.tokenBudget.statusAfterContext t .ce).2 } s))

theorem offerCe_spec (batch : ReplicaBatch R) (w : W) (t : TokenArray) :
    Spec (offerCe e i batch r) (touch r w { s.contexts r with tokens := t } s)
      (fun result s' => CeOutcome e i batch r s result.1 result.2 s') fun _ _ => True := by
  rw [offerCe]
  simp only [spec_bind, spec_get, tokens_touch_self]
  refine Returns.mono statusAfterContext_returns ?_
  rintro status s₁ ⟨hstatus, rfl⟩
  simp only [tokens_touch_self] at hstatus ⊢
  rw [touch_touch]
  cases hs : status with
  | exhausted =>
    simp only [spec_bind]
    refine Spec.mono_ok returnToRequestQueue_spec ?_
    rintro _ _ ⟨w', ctx, rfl⟩
    rw [touch_touch]
    exact .refused w w' t ctx (hstatus.symm.trans hs)
  | reached | available =>
    simp only [spec_bind, spec_get]
    refine Spec.mono_ok addActiveLora_spec ?_
    rintro _ _ ⟨manager, loras, rfl, hsame, hloras⟩
    have hout : CeOutcome e i batch r s _ _ _ :=
      .admitted w t manager loras (by rw [← hstatus, hs]; simp) hsame hloras
    rw [← hstatus, hs] at hout
    simpa [addToBatch, activate, tokens, touch] using hout

theorem raiseIfFatal_spec (caller : String) (noOtherWork : Bool) :
    Spec (raiseIfFatal e caller r i noOtherWork) s (fun _ s' => s' = s) fun _ _ => True := by
  rw [raiseIfFatal, spec_get_bind]
  split
  · trivial
  · rfl

theorem serveCe_spec (batch : ReplicaBatch R) (w : W) :
    Spec (serveCe e i batch r) { s with world := w }
      (fun result s' => CeOutcome e i batch r s result.1 result.2 s') fun _ _ => True := by
  rw [serveCe, spec_bind]
  refine Spec.mono_ok alloc_spec ?_
  rintro transfer _ ⟨w', t, rfl, -, -⟩
  change Spec _ (touch r w' { s.contexts r with tokens := t } s) _ _
  cases transfer with
  | none =>
    simp only [spec_bind, spec_get]
    refine Spec.mono_ok (raiseIfFatal_spec ..) ?_
    rintro _ _ rfl
    refine Spec.mono_ok returnToRequestQueue_spec ?_
    rintro _ _ ⟨w'', ctx, rfl⟩
    rw [touch_touch]
    exact .unserved .leave w'' ctx (by simp)
  | some transfer =>
    rw [spec_get_bind]
    split
    · exact offerCe_spec batch w' t
    · exact .cordoned w' _ transfer

theorem ceStep_spec (batch : ReplicaBatch R) {rest : OrderedDict R Unit}
    (hpop : (s.replicas i).ceReqs.popFirst = some ((r, ()), rest)) : Spec (ceStep e i batch) s
      (fun result s' => CeOutcome e i batch r (take i rest s) result.1 result.2 s')
      fun _ _ => True := by
  rw [ceStep]
  simp only [spec_bind, spec_get, hpop, onReplica, spec_modify]
  change Spec (canAllocateLora e r i) (take i rest s) _ _
  refine Returns.mono canAllocateLora_returns ?_
  rintro allowed _ (⟨rfl, rfl⟩ | ⟨rfl, rfl, manager, hmanager, hno⟩)
  · simp only [if_true]
    split
    · trivial
    split
    · rw [spec_bind]
      refine Spec.mono_ok returnToRequestQueue_spec ?_
      rintro _ _ ⟨w, ctx, rfl⟩
      exact .unserved .exit w ctx (by simp)
    · -- the claim changes the world only
      rw [spec_bind, onWorld, spec_modify]
      exact serveCe_spec batch _
  · simp only [Bool.false_eq_true, if_false]
    exact .deferred manager hmanager hno

/-- What every outcome keeps holds after the loop. -/
theorem ceLoop_rule {J : Signal → ReplicaBatch R → TextBatchConstructor n R N M L W T F → Prop}
    (hstep : ∀ batch s r rest signal batch' s', J .next batch s →
      (s.replicas i).ceReqs.popFirst = some ((r, ()), rest) →
      CeOutcome e i batch r (take i rest s) signal batch' s' → J signal batch' s')
    (hleave : ∀ batch s, J .next batch s → J .leave batch s) (k fuel : ℕ)
    {batch : ReplicaBatch R} (h : J .next batch s) :
    Spec (ceLoop e i k fuel batch) s (fun result s' => J result.1 result.2 s' ∧ result.1 ≠ .next)
      fun _ _ => True := by
  induction fuel generalizing batch s with
  | zero => exact ⟨hleave _ _ h, by simp⟩
  | succ fuel ih =>
    rw [ceLoop]
    simp only [spec_bind, spec_get]
    split_ifs with hcond
    · cases hpop : (s.replicas i).ceReqs.popFirst with
      | none =>
        have hlength := (s.replicas i).ceReqs.length_keys
        rw [OrderedDict.popFirst_eq_none.mp hpop] at hlength
        exact absurd hcond.2.2 (by rw [← hlength]; simp)
      | some popped =>
        obtain ⟨⟨r, _⟩, rest⟩ := popped
        rw [spec_bind]
        refine Spec.mono_ok (ceStep_spec batch hpop) ?_
        rintro ⟨signal, batch'⟩ s' hout
        have hJ := hstep _ _ _ _ _ _ _ h hpop hout
        cases signal with
        | next => exact ih hJ
        | leave | exit => exact ⟨hJ, by simp⟩
    · exact ⟨hleave _ _ h, by simp⟩

/-! ### Token generation -/

/-- The outcomes of the loop around `alloc` for the request `r`, with the candidates behind it and
those that are left. -/
inductive TgAllocated (i : Fin (n + 1)) (r : R) : List R → TextBatchConstructor n R N M L W T F →
    Option (List R) → TextBatchConstructor n R N M L W T F → Prop
  | allocated (candidates : List R) (s : TextBatchConstructor n R N M L W T F) (w : W)
      (t : TokenArray) (hactive : t.activeLength ≤ (s.tokens r).activeLength)
      (hlen : t.len = (s.tokens r).len) :
      TgAllocated i r candidates s (some candidates)
        (touch r w { s.contexts r with tokens := t } s)
  | stuck (candidates : List R) (s : TextBatchConstructor n R N M L W T F) (w : W)
      (ctx : GenerationContext R L) : TgAllocated i r candidates s none (touch r w ctx s)
  | preempted (candidates : List R) (oldest : R) (s s' : TextBatchConstructor n R N M L W T F)
      (w w' : W) (t : TokenArray) (ctx : GenerationContext R L) (result : Option (List R))
      (hactive : t.activeLength ≤ (s.tokens r).activeLength) (hlen : t.len = (s.tokens r).len)
      (hrest : TgAllocated i r candidates (requeue i oldest (touch oldest w' ctx
        (touch r w { s.contexts r with tokens := t } s))) result s') :
      TgAllocated i r (candidates ++ [oldest]) s result s'

theorem tgAlloc_spec (noOtherWork : Bool) (fuel : ℕ) (candidates : List R)
    (s : TextBatchConstructor n R N M L W T F) :
    Spec (tgAlloc e i noOtherWork r fuel candidates) s
      (fun result s' => TgAllocated i r candidates s result s') fun _ _ => True := by
  induction fuel generalizing candidates s with
  | zero =>
    rw [tgAlloc, spec_bind]
    refine Spec.mono_ok alloc_spec ?_
    rintro transfer _ ⟨w, t, rfl, hactive, hlen⟩
    cases transfer with
    | some _ => exact .allocated candidates s w t hactive hlen
    | none =>
      simp only [spec_bind]
      refine Spec.mono_ok (raiseIfFatal_spec ..) ?_
      rintro _ _ rfl
      exact .stuck candidates s w _
  | succ fuel ih =>
    rw [tgAlloc, spec_bind]
    refine Spec.mono_ok alloc_spec ?_
    rintro transfer _ ⟨w, t, rfl, hactive, hlen⟩
    cases transfer with
    | some _ => exact .allocated candidates s w t hactive hlen
    | none =>
      cases hlast : candidates.getLast? with
      | none =>
        simp only [spec_bind]
        refine Spec.mono_ok (raiseIfFatal_spec ..) ?_
        rintro _ _ rfl
        exact .stuck candidates s w _
      | some oldest =>
        simp only [spec_bind, onReplica, spec_modify]
        rw [preemptRequest]
        refine Spec.mono_ok returnToRequestQueue_spec ?_
        rintro _ _ ⟨w', ctx, rfl⟩
        refine Spec.mono_ok (ih candidates.dropLast _) ?_
        intro result s' hrest
        obtain ⟨init, hinit⟩ := List.getLast?_eq_some_iff.mp hlast
        rw [hinit, List.dropLast_concat] at hrest
        rw [hinit]
        refine .preempted init oldest s s' w w' t ctx result hactive hlen ?_
        simpa [requeue, touch, OrderedDict.erase_erase] using hrest

/-- The outcomes of an iteration for the candidate `r`, with the candidates that are left. -/
inductive TgOutcome (i : Fin (n + 1)) (batch : ReplicaBatch R) (r : R)
    (candidates : List R) (s : TextBatchConstructor n R N M L W T F) :
    List R → ReplicaBatch R → TextBatchConstructor n R N M L W T F → Prop
  /-- Its adapter is not active. -/
  | preempted (w : W) (ctx : GenerationContext R L) :
      TgOutcome i batch r candidates s candidates batch (requeue i r (touch r w ctx s))
  /-- It does not fit into the budgets. -/
  | refused (ctx : GenerationContext R L) :
      TgOutcome i batch r candidates s candidates batch (touch r s.world ctx s)
  /-- There are no blocks, and there is no candidate to preempt. -/
  | stuck (t : TokenArray) (s' : TextBatchConstructor n R N M L W T F)
      (halloc : TgAllocated i r candidates (touch r s.world { s.contexts r with tokens := t } s)
        none s') :
      TgOutcome i batch r candidates s [] batch s'
  /-- It joins the batch. -/
  | added (candidates' : List R) (s' : TextBatchConstructor n R N M L W T F)
      (hstatus : (batch.tokenBudget.statusAfterContext (s.tokens r) .tg).1 ≠ .exhausted)
      (halloc : TgAllocated i r candidates (touch r s.world { s.contexts r with
        tokens := (batch.tokenBudget.statusAfterContext (s.tokens r) .tg).2 } s)
        (some candidates') s') :
      TgOutcome i batch r candidates s candidates' (addToBatch batch r .tg s') s'

/-- What every outcome keeps holds after the loop. -/
theorem tgLoop_rule {J : List R → ReplicaBatch R → TextBatchConstructor n R N M L W T F → Prop}
    (hstep : ∀ batch r candidates s candidates' batch' s', J (r :: candidates) batch s →
      r ∈ (s.replicas i).tgReqs → TgOutcome i batch r candidates s candidates' batch' s' →
      J candidates' batch' s') (fuel : ℕ) {candidates : List R} {batch : ReplicaBatch R}
    (h : J candidates batch s) :
    Spec (tgLoop e i fuel candidates batch) s (fun batch' s' => ∃ candidates', J candidates' batch' s')
      fun _ _ => True := by
  induction fuel generalizing candidates batch s with
  | zero =>
    rw [tgLoop.eq_def]
    exact ⟨candidates, h⟩
  | succ fuel ih =>
    cases candidates with
    | nil =>
      rw [tgLoop.eq_def]
      exact ⟨[], h⟩
    | cons r candidates =>
      rw [tgLoop]
      split
      · simp only [spec_bind, spec_get]
        split
        · trivial
        rename_i hmem
        rw [not_not] at hmem
        split
        · rw [spec_bind, preemptRequest]
          refine Spec.mono_ok returnToRequestQueue_spec ?_
          rintro _ _ ⟨w, ctx, rfl⟩
          exact ih (hstep _ _ _ _ _ _ _ h hmem (.preempted w ctx))
        rw [spec_bind]
        refine Returns.mono statusAfterContext_returns ?_
        rintro status _ ⟨hstatus, rfl⟩
        split
        · exact ⟨_, hstep _ _ _ _ _ _ _ h hmem (.refused _)⟩
        rename_i hne
        rw [spec_bind]
        refine Spec.mono_ok (tgAlloc_spec ..) ?_
        intro result s' halloc
        cases result with
        | none => exact ⟨[], hstep _ _ _ _ _ _ _ h hmem (.stuck _ _ halloc)⟩
        | some candidates' =>
          have hJ := hstep _ _ _ _ _ _ _ h hmem (.added candidates' s' (hstatus ▸ hne) halloc)
          rw [spec_get_bind]
          split
          · exact ⟨_, hJ⟩
          · exact ih hJ
      · exact ⟨_, h⟩

end Operations

end TextBatchConstructor
