/-
The requests of the batch constructor along a run.

Requests are enqueued, batches are constructed and advanced, requests are released, and in between
the contexts, the KV cache and the grammar gate change in any way.

* `Placed.advanceRequests`, `Placed.releaseRequest`, `Placed.enqueueNewRequest` — the operations
  keep the invariant;
* `History`, `Op` — a constructor with its outstanding batches and the admitted requests, and what
  can happen to it;
* `run_placed` — in a run in which there is room whenever a batch is constructed, each admitted
  request is in exactly one place after every operation;
* `constructBatch_fits_iff` — in every state of a run, the batches keep to the budgets exactly when
  every request that was offered is safe.
-/
import MojoMac.BatchBudget

open Function StateSpec List OrderedDict

set_option linter.unusedSectionVars false

namespace TextBatchConstructor

variable {n : ℕ} {R N M L W T F : Type} [DecidableEq R] [DecidableEq N] [ToString R] [IntCast F]
  [Div F] [Sub F] [LE F] [DecidableLE F] [LT F] [DecidableLT F] {e : BatchSettings n R N W T F}
  {s s' : TextBatchConstructor n R N M L W T F} {A : Finset R}
  {batches : Fin (n + 1) → OrderedDict R RequestType} {clear : Prop} {r : R} {i : Fin (n + 1)}

/-- An admitted request waits for its grammar, is in the pool, or is bound. -/
theorem Placed.known (h : Placed e clear A batches s) (hr : r ∈ A) :
    r ∈ s.grammarPending ∨ r ∈ s.cePending ∨ ∃ i, s.boundRequests.get? r = some i := by
  obtain ⟨loc, hloc, hadmitted, -⟩ := h.located
  obtain ⟨p, hp⟩ := Option.isSome_iff_exists.mp ((hadmitted r).mpr hr)
  have hat := (hloc.at_iff r p).mpr hp
  rw [hloc.bound, hp]
  cases p with
  | grammar => exact .inl hat
  | pool => exact .inr (.inl hat)
  | queue k j | onloading j | out j => exact .inr (.inr ⟨j, rfl⟩)

/-- The constructor knows the admitted requests. -/
theorem Placed.contains_iff (h : Placed e clear A batches s) : s.contains r = true ↔ r ∈ A := by
  simp only [contains, Bool.or_eq_true, decide_eq_true_eq]
  constructor
  · rintro (((hbound | hpool) | hgrammar) | honloading)
    · exact h.bound_mem r hbound
    · exact h.mem (p := .pool) hpool
    · exact h.mem (p := .grammar) hgrammar
    · obtain ⟨⟨j, t⟩, ht⟩ := exists_get? honloading
      exact h.mem (p := .onloading j) ⟨t, ht⟩
  · intro hr
    rcases h.known hr with hgrammar | hpool | ⟨j, hj⟩
    · exact .inl (.inr hgrammar)
    · exact .inl (.inl (.inr hpool))
    · exact .inl (.inl (.inl (mem_of_get? hj)))

/-! ### Batches that have run -/

/-- A request joins the TG queue. -/
def join (i : Fin (n + 1)) (r : R) (s : TextBatchConstructor n R N M L W T F) :
    TextBatchConstructor n R N M L W T F :=
  { s with replicas := Function.update s.replicas i { s.replicas i with
      tgReqs := (s.replicas i).tgReqs.set r () } }

variable {j : Fin (n + 1)}

theorem mem_tgReqs_join {r' : R} (hmem : r' ∈ (s.replicas j).tgReqs) :
    r' ∈ ((join i r s).replicas j).tgReqs := by
  by_cases hj : j = i
  · subst hj
    simp [join, hmem]
  · simpa [join, hj] using hmem

/-- The CE requests that are still out after `r` has left the batch. -/
theorem outOf_update_erase : outOf A (update batches i ((batches i).erase r)) =
      update (outOf A batches) i (outOf A batches i \ {r}) := by
  funext j
  by_cases hj : j = i
  · subst hj
    ext r'
    simp only [mem_outOf, update_self, Set.mem_sdiff, Set.mem_singleton_iff, get?_erase]
    by_cases hr' : r' = r
    · simp [hr']
    · simp [hr']
  · simp [outOf, hj]

theorem outOf_update_erase_of_notMem (hr : r ∉ outOf A batches i) :
    outOf A (update batches i ((batches i).erase r)) = outOf A batches := by
  rw [outOf_update_erase, Set.sdiff_singleton_eq_self hr, update_eq_self]

theorem get?_update_erase {r' : R} {t : RequestType}
    (h : (update batches i ((batches i).erase r) j).get? r' = some t) :
    (batches j).get? r' = some t := by
  by_cases hj : j = i
  · subst hj
    rw [update_self, get?_erase] at h
    split at h
    · simp at h
    · exact h
  · rwa [update_of_ne hj] at h

/-- **A request of a batch that has run is in the TG queue.** -/
theorem Placed.join (h : Placed e clear A batches s) (hr : r ∈ batches i) :
    Placed e clear A (update batches i ((batches i).erase r))
      (if s.contains r then join i r s else s) := by
  obtain ⟨t, ht⟩ := exists_get? hr
  by_cases hA : r ∈ A
  · rw [if_pos (h.contains_iff.mpr hA)]
    have hnamed : Named e (s.join i r) := h.named.congr (replica_update (·.activeLoras) (by rfl))
    have htg : ∀ j r' t', (update batches i ((batches i).erase r) j).get? r' = some t' →
        t' ≠ .ce → r' ∈ A → r' ∈ ((s.join i r).replicas j).tgReqs :=
      fun j r' t' hget ht' hA' => mem_tgReqs_join (h.tg j r' t' (get?_update_erase hget) ht' hA')
    by_cases hce : t = .ce
    · -- the request was only in the batch
      have hat : At s (outOf A batches) r (.out i) := ⟨hA, hce ▸ ht⟩
      refine h.move hat (q := .queue .tg i) (by simp) (fun loc hloc hp => ?_) hnamed htg
      rw [outOf_update_erase]
      exact hloc.advance hp
    -- it has been in the TG queue all the time
    have hmem := h.tg i r t ht hce hA
    have hget : (s.replicas i).tgReqs.get? r = some () := by
      obtain ⟨u, hu⟩ := exists_get? hmem
      exact hu
    have hsame : s.join i r = s := by
      rw [TextBatchConstructor.join, set_eq_self hget]
      change { s with replicas := update s.replicas i (s.replicas i) } = s
      rw [update_eq_self]
    have hout : r ∉ outOf A batches i := fun hmem => hce (Option.some.inj (ht.symm.trans hmem.2))
    rw [hsame] at htg ⊢
    exact ⟨outOf_update_erase_of_notMem hout ▸ h.located, h.named, htg⟩
  · -- it was released in the meantime
    have hcontains : s.contains r = false := by
      rw [← Bool.not_eq_true, h.contains_iff]
      exact hA
    have hout : r ∉ outOf A batches i := fun hmem => hA hmem.1
    rw [hcontains, if_neg Bool.false_ne_true]
    exact ⟨outOf_update_erase_of_notMem hout ▸ h.located, h.named,
      fun j r' t' hget => h.tg j r' t' (get?_update_erase hget)⟩

/-- All requests of a batch have joined. -/
theorem foldl_erase_keys (d : OrderedDict R RequestType) : d.keys.foldl .erase d = .empty := by
  refine eq_empty_of_keys (eq_nil_iff_forall_not_mem.mpr fun r hr => ?_)
  rw [OrderedDict.mem_keys, ← OrderedDict.get?_isSome, OrderedDict.get?_foldl_erase] at hr
  split_ifs at hr with hnot
  · simp at hr
  · exact hnot (get?_isSome.mp hr)

theorem Placed.requeue (h : Placed e clear A batches s) (hr : r ∈ (s.replicas i).tgReqs)
    (hbatch : (batches i).get? r = none) : Placed e clear A batches (requeue i r s) := by
  have hsame : s.touch r s.world (s.contexts r) = s := by simp [TextBatchConstructor.touch]
  have := h.preempt hr hbatch s.world (s.contexts r)
  rwa [hsame] at this

theorem Placed.advanceReplica (h : Placed e clear A batches s) {keys : Fin (n + 1) → List R}
    (hkeys : keys i = (batches i).keys) : Returns (advanceReplica keys i) s
      fun _ s' => Placed e clear A (update batches i .empty) s' := by
  rw [Returns, TextBatchConstructor.advanceReplica, hkeys, spec_bind]
  have hloop : Returns ((batches i).keys.forM fun requestId => do
      if (← get).contains requestId then
        onReplica i fun q => { q with tgReqs := q.tgReqs.set requestId () }) s fun _ s' =>
      Placed e clear A (update batches i .empty) s' ∧
        ∀ r ∈ (batches i).keys, r ∈ A → r ∈ (s'.replicas i).tgReqs := by
    refine Spec.imp (Spec.forM (E := fun _ _ => False) (I := fun done s' =>
      Placed e clear A (update batches i (done.foldl .erase (batches i))) s' ∧
        ∀ r ∈ done, r ∈ A → r ∈ (s'.replicas i).tgReqs) _ ?_ ⟨?_, by simp⟩) ?_
    · rintro done r todo hsplit s' ⟨hplaced, hdone⟩
      have hr : r ∈ update batches i (done.foldl .erase (batches i)) i := by
        have hnew : r ∉ done := not_mem_done (batches i).nodup_keys hsplit
        have hmem : r ∈ batches i := by
          rw [← OrderedDict.mem_keys, hsplit]
          simp
        rw [update_self, ← get?_isSome, get?_foldl_erase, if_neg hnew, get?_isSome]
        exact hmem
      have hjoin := hplaced.join hr
      rw [update_self, update_idem] at hjoin
      have hfold : (done ++ [r]).foldl .erase (batches i) =
          (done.foldl .erase (batches i)).erase r := by
        rw [foldl_append]
        rfl
      rw [← hfold] at hjoin
      rw [spec_get_bind]
      split_ifs with hcontains
      · rw [if_pos hcontains] at hjoin
        rw [onReplica, spec_modify]
        refine ⟨hjoin, fun r' hr' hA => ?_⟩
        rcases mem_append.mp hr' with hold | hnew
        · exact mem_tgReqs_join (hdone r' hold hA)
        · rw [mem_singleton.mp hnew]
          simp
      · rw [if_neg hcontains] at hjoin
        refine ⟨hjoin, fun r' hr' hA => ?_⟩
        rcases mem_append.mp hr' with hold | hnew
        · exact hdone r' hold hA
        · rw [mem_singleton.mp hnew, ← hplaced.contains_iff] at hA
          exact absurd hA hcontains
    · simpa using h
    · rintro _ s' ⟨hplaced, hdone⟩
      rw [foldl_erase_keys] at hplaced
      exact ⟨hplaced, hdone⟩
  refine Spec.imp hloop ?_
  rintro _ s' ⟨hplaced, hdone⟩
  split
  · exact hplaced
  rename_i last hlast
  rw [spec_get_bind]
  split
  · -- the last request was chunked
    rename_i hcond
    rw [onReplica, spec_modify]
    refine hplaced.requeue (hdone last (mem_of_getLast? hlast) ?_) ?_
    · exact hplaced.contains_iff.mp hcond.1
    · rw [update_self]
      rfl
  · exact hplaced

theorem Placed.advanceRequests (h : Placed e clear A batches s) :
    Returns (advanceRequests fun i => (batches i).keys) s
      fun _ s' => Placed e clear A (fun _ => .empty) s' := by
  refine Spec.imp (Spec.forM (E := fun _ _ => False) (I := fun done s' =>
    Placed e clear A (fun i => if i ∈ done then .empty else batches i) s') _ ?_ ?_) ?_
  · rintro done i todo hfin s' hplaced
    have hi : i ∉ done := not_mem_done (nodup_finRange _) hfin
    refine Spec.imp (hplaced.advanceReplica (i := i) ?_) ?_
    · rw [if_neg hi]
    intro _ s'' hplaced'
    have hbatches : (fun j => if j ∈ done ++ [i] then .empty else batches j) =
        update (fun j => if j ∈ done then .empty else batches j) i .empty := by
      funext j
      by_cases hj : j = i
      · simp [hj]
      · simp [hj]
    rw [hbatches]
    exact hplaced'
  · simpa using h
  · intro _ s' hplaced
    simpa using hplaced

/-! ### Requests that are released -/

/-- The queues of a replica without a request. -/
def withdraw (r : R) (q : ReplicaRequests R N) : ReplicaRequests R N :=
  if r ∈ q.ceReqs then { q with ceReqs := q.ceReqs.erase r }
  else if r ∈ q.tgReqs then { q with tgReqs := q.tgReqs.erase r }
  else { q with deferredLoraRequests := q.deferredLoraRequests.erase r }

/-- A request that is in one queue at most is withdrawn from all of them. -/
theorem mem_withdraw {q : ReplicaRequests R N}
    (hunique : ∀ k k', r ∈ q.queue k → r ∈ q.queue k' → k = k') (k : Queue) (r' : R) :
    r' ∈ (withdraw r q).queue k ↔ r' ≠ r ∧ r' ∈ q.queue k := by
  have hother : ∀ k', r ∈ q.queue k' → k ≠ k' → r ∉ q.queue k :=
    fun k' hk' hne hmem => hne (hunique k k' hmem hk')
  rw [withdraw]
  split
  · rename_i hce
    cases k with
    | ce => exact mem_erase
    | tg | deferred => exact mem_iff_ne_and_mem (hother .ce hce (by simp))
  rename_i hce
  split_ifs with htg
  · cases k with
    | tg => exact mem_erase
    | ce | deferred => exact mem_iff_ne_and_mem (hother .tg htg (by simp))
  cases k with
  | ce => exact mem_iff_ne_and_mem hce
  | tg => exact mem_iff_ne_and_mem htg
  | deferred => exact mem_erase

theorem activeLoras_withdraw (q : ReplicaRequests R N) :
    (withdraw r q).activeLoras = q.activeLoras := by
  rw [withdraw]
  split
  · rfl
  · split <;> rfl

/-- What the release of a bound request does: it leaves the queues and the cordon, is bound no
longer, and its adapter may lose its protection. -/
structure Released (i : Fin (n + 1)) (r : R) (s s' : TextBatchConstructor n R N M L W T F) :
    Prop where
  grammar : s'.grammarPending = s.grammarPending
  pool : s'.cePending = s.cePending
  manager : s'.loraManager = s.loraManager
  onloading : s'.onloadingReqs = s.onloadingReqs.erase r
  bound : s'.boundRequests = s.boundRequests.erase r
  names : s'.requestIdToLoraName = s.requestIdToLoraName.erase r
  queue : ∀ j k, (s'.replicas j).queue k =
    if j = i then (withdraw r (s.replicas i)).queue k else (s.replicas j).queue k
  loras : ∀ j name, name ∈ (s'.replicas j).activeLoras → name ∈ (s.replicas j).activeLoras ∧
    (j = i → s.requestIdToLoraName.get? r = some (some name) →
      some name ∈ s'.requestIdToLoraName.values)

variable {loc : R → Option (Place n)}

theorem Released.mem_queue {out : Fin (n + 1) → Set R}
    (h : Released i r s s') (hloc : Located s out loc) (hbound : s.boundRequests.get? r = some i)
    (j : Fin (n + 1)) (k : Queue) (r' : R) :
    r' ∈ (s'.replicas j).queue k ↔ r' ≠ r ∧ r' ∈ (s.replicas j).queue k := by
  rw [h.queue]
  split_ifs with hj
  · subst hj
    refine mem_withdraw (fun k k' hk hk' => ?_) k r'
    have hp := (hloc.at_iff r (.queue k j)).mp hk
    have hplace := hloc.eq hp (q := .queue k' j) hk'
    rw [Place.queue.injEq] at hplace
    exact hplace.1
  · refine mem_iff_ne_and_mem fun hmem => ?_
    -- a request is in queues of its own replica only
    have hp := (hloc.at_iff r (.queue k j)).mp hmem
    rw [hloc.bound, hp] at hbound
    exact hj (Option.some.inj hbound)

theorem Released.located (h : Released i r s s')
    (hloc : Located s (outOf A batches) loc) (hbound : s.boundRequests.get? r = some i) :
    Located s' (outOf (A.erase r) batches) (update loc r none) := by
  have hplace : ∀ p, At s (outOf A batches) r p → p.replica = some i := by
    intro p hp
    rw [hloc.bound, (hloc.at_iff r p).mp hp] at hbound
    exact hbound
  refine hloc.relocate (fun r' hr' p => ?_) (fun p => ?_) (fun r' hr' => ?_) ?_
  · cases p with
    | grammar => simp only [At, h.grammar]
    | pool => simp only [At, h.pool]
    | queue k j =>
      simp only [At]
      rw [h.mem_queue hloc hbound, and_iff_right hr']
    | onloading j => simp only [At, h.onloading, get?_erase_of_ne _ hr']
    | out j => simp [At, mem_outOf, hr']
  · refine iff_of_false (fun hat => ?_) (by simp)
    cases p with
    | grammar =>
      have := hplace .grammar (by simpa only [At, h.grammar] using hat)
      simp [Place.replica] at this
    | pool =>
      have := hplace .pool (by simpa only [At, h.pool] using hat)
      simp [Place.replica] at this
    | queue k j => exact ((h.mem_queue hloc hbound j k r).mp hat).1 rfl
    | onloading j =>
      obtain ⟨t, ht⟩ := hat
      rw [h.onloading, get?_erase_self] at ht
      simp at ht
    | out j => simp [At, mem_outOf] at hat
  · rw [h.bound, get?_erase_of_ne _ hr']
  · rw [h.bound, get?_erase_self]
    rfl

theorem Released.named (h : Released i r s s') (hnamed : Named e s) : Named e s' where
  single := by
    rw [h.manager]
    exact hnamed.single
  names r' := by
    have hsame : SameLoras s.loraManager s'.loraManager := h.manager ▸ SameLoras.refl _
    have hadapter : adapter e s' r' = adapter e s r' := by rw [adapter, adapter, hsame.isLora]
    rw [h.names, h.bound, get?_erase, get?_erase, hadapter, hnamed.names]
    split <;> rfl
  protects j name hname := by
    obtain ⟨hold, hlast⟩ := h.loras j name hname
    obtain ⟨r', hr'⟩ := mem_values.mp (hnamed.protects j name hold)
    by_cases hrr : r' = r
    · subst hrr
      by_cases hj : j = i
      · exact hlast hj hr'
      -- there are several replicas, so there are no adapters
      have hnone : s.loraManager = none := by
        refine hnamed.single.resolve_right fun hn => hj ?_
        subst hn
        exact Fin.ext (by omega)
      rw [hnamed.names, adapter, isLora, hnone] at hr'
      simp at hr'
    · rw [h.names]
      exact mem_values.mpr ⟨r', (get?_erase_of_ne _ hrr).trans hr'⟩

theorem Released.placed (h : Released i r s s') (hplaced : Placed e clear A batches s)
    (hbound : s.boundRequests.get? r = some i) : Placed e clear (A.erase r) batches s' := by
  refine hplaced.remove (fun loc hloc => h.located hloc hbound) (h.named hplaced.named) ?_
  intro j r' hr' hmem
  obtain ⟨loc, hloc, -⟩ := hplaced.located
  exact (h.mem_queue hloc hbound j .tg r').mpr ⟨hr', hmem⟩

theorem releaseLora_returns (r : R) (i : Fin (n + 1)) :
    Returns (releaseLora r i) s fun _ s' => ∃ loras, s' = { s with
        requestIdToLoraName := s.requestIdToLoraName.erase r
        replicas := update s.replicas i { s.replicas i with activeLoras := loras } } ∧
      ∀ name ∈ loras, name ∈ (s.replicas i).activeLoras ∧
        (s.requestIdToLoraName.get? r = some (some name) →
          some name ∈ (s.requestIdToLoraName.erase r).values) := by
  have hsame : ∀ s' : TextBatchConstructor n R N M L W T F, s' = { s' with
      replicas := update s'.replicas i { s'.replicas i with
        activeLoras := (s'.replicas i).activeLoras } } := by
    intro s'
    change s' = { s' with replicas := update s'.replicas i (s'.replicas i) }
    rw [update_eq_self]
  rw [Returns, releaseLora]
  simp only [spec_bind, spec_get, spec_modify]
  split
  · rename_i name hname
    simp only [spec_bind, spec_get]
    split
    · -- no other request uses the adapter
      rw [onReplica, spec_modify]
      refine ⟨_, rfl, fun name' hname' => ?_⟩
      obtain ⟨hne, hmem⟩ := Finset.mem_erase.mp hname'
      refine ⟨hmem, fun hget => absurd ?_ hne⟩
      rw [hname, Option.some.injEq, Option.some.injEq] at hget
      exact hget.symm
    · rename_i hused
      rw [not_not] at hused
      refine ⟨_, hsame _, fun name' hmem => ⟨hmem, fun hget => ?_⟩⟩
      rw [hname, Option.some.injEq] at hget
      exact hget ▸ hused
  · rename_i hno
    refine ⟨_, hsame _, fun name' hmem => ⟨hmem, fun hget => ?_⟩⟩
    exact absurd hget (hno name')

/-- **A request that is released is in no place, and the others stay where they are.** -/
theorem Placed.releaseRequest (h : Placed e clear A batches s) (r : R) :
    Spec (releaseRequest e r) s (fun _ s' => Placed e clear (A.erase r) batches s')
      fun _ s' => s' = s := by
  rw [TextBatchConstructor.releaseRequest]
  simp only [spec_bind, spec_get]
  split
  · rfl
  rename_i hcontains
  have hA : r ∈ A := h.contains_iff.mp (by simpa using hcontains)
  split
  · rename_i hgrammar
    simp only [spec_bind, spec_modify, onWorld]
    exact (h.eraseGrammar hgrammar).congr
  rename_i hgrammar
  split
  · rename_i hpool
    simp only [spec_bind, spec_modify, onWorld]
    exact (h.erasePool hpool).congr
  rename_i hpool
  obtain ⟨i, hi⟩ := ((h.known hA).resolve_left hgrammar).resolve_left hpool
  simp only [spec_bind, spec_modify, hi, onReplica]
  refine Returns.mono (releaseLora_returns r i) ?_
  rintro _ s₁ ⟨loras, hs₁, hloras⟩
  have hplaced : Placed e clear (A.erase r) batches
      { s₁ with boundRequests := s₁.boundRequests.erase r } := by
    refine Released.placed (i := i) ?_ h hi
    subst hs₁
    refine ⟨rfl, rfl, rfl, rfl, rfl, rfl, fun j k => ?_, fun j name hname => ?_⟩
    · by_cases hj : j = i
      · subst hj
        rw [if_pos rfl]
        simp only [update_self]
        cases k <;> rfl
      · simp [hj]
    · by_cases hj : j = i
      · subst hj
        simp only [update_self] at hname
        obtain ⟨hmem, hlast⟩ := hloras name hname
        have hactive := activeLoras_withdraw (r := r) (s.replicas j)
        refine ⟨?_, fun _ hget => hlast hget⟩
        rw [← hactive]
        simpa [withdraw] using hmem
      · simp only [update_of_ne hj] at hname
        exact ⟨hname, fun heq => absurd heq hj⟩
  -- the KV cache, the pipeline and the grammar gate do not matter
  simp only [spec_get, onWorld]
  split <;> split <;> exact hplaced.congr

/-! ### New requests -/

theorem newlyFailed_eq_empty (h : s'.grammarFailed = s.grammarFailed) : newlyFailed s s' = ∅ := by
  have happend : s'.grammarFailed = s.grammarFailed ++ [] := by rw [h, append_nil]
  rw [newlyFailed_of_eq_append happend]
  rfl

/-- A new request is in one place, unless its grammar has failed. -/
theorem Placed.enqueueNewRequest (h : Placed e clear A batches s) (hr : r ∉ A)
    (hbatch : ∀ i, (batches i).get? r = none) (replicaIdx : Option (Fin (n + 1))) :
    Returns (enqueueNewRequest e r replicaIdx) s fun _ s' =>
      Placed e clear (insert r A \ newlyFailed s s') batches s' := by
  have hadmitted : ∀ s', s'.grammarFailed = s.grammarFailed → Placed e clear (insert r A) batches s' →
      Placed e clear (insert r A \ newlyFailed s s') batches s' := by
    intro s' hfailed hplaced
    rwa [newlyFailed_eq_empty hfailed, Finset.sdiff_empty]
  rw [Returns, TextBatchConstructor.enqueueNewRequest, spec_get_bind]
  split
  · simp only [spec_bind, spec_modify, spec_get, onWorld]
    have hworld : Placed e clear A batches { s with world := e.services.submit r s.world } :=
      h.congr
    split
    · refine Returns.mono (hworld.installGrammar hr hbatch replicaIdx) ?_
      rintro _ s' ⟨⟨hplaced, hfailed⟩ | ⟨hplaced, error, hfailed⟩, -⟩
      · exact hadmitted s' hfailed hplaced
      have happend : s'.grammarFailed = s.grammarFailed ++ [(r, error)] := hfailed
      have hset : insert r A \ (map Prod.fst [(r, error)]).toFinset = A := by
        simp [Finset.sdiff_singleton_eq_erase, hr]
      rw [newlyFailed_of_eq_append happend, hset]
      exact hplaced
    · rw [spec_modify]
      refine hadmitted _ rfl (hworld.add hr hbatch (q := .grammar) (by simp)
        (fun _ hloc hnone => hloc.addGrammar hnone replicaIdx)
        (hworld.named.congr fun _ => rfl) fun _ _ hmem => hmem)
  · refine Returns.mono (h.admitRequest hr hbatch replicaIdx) ?_
    rintro _ s' ⟨hplaced, -, hfailed, -⟩
    exact hadmitted s' hfailed hplaced

/-! ### Runs -/

/-- A constructor, the batches that it has returned and that have not run yet, and the requests
that were enqueued and neither released nor failed by the grammar gate. -/
structure History (n : ℕ) (R N M L W T F : Type) where
  state : TextBatchConstructor n R N M L W T F
  batches : Option (Fin (n + 1) → ReplicaBatch R)
  admitted : Finset R

namespace History

/-- The requests of the outstanding batches. -/
def outstanding (h : History n R N M L W T F) (i : Fin (n + 1)) : OrderedDict R RequestType :=
  match h.batches with
  | none => .empty
  | some batches => (batches i).batch

theorem outstanding_of_none {h : History n R N M L W T F} (hnone : h.batches = none) :
    h.outstanding = fun _ => .empty := by
  funext i
  rw [outstanding, hnone]

end History

/-- What can happen: the contexts and the services change, and the scheduler calls the
constructor. -/
inductive Op (n : ℕ) (R L W : Type) where
  | environment (world : W) (contexts : R → GenerationContext R L)
  | enqueue (r : R) (replicaIdx : Option (Fin (n + 1)))
  | construct
  | advance
  | release (r : R)
  | takeFailed

/-- An operation.  Request ids are not used twice, and batches are constructed and advanced in
turn.  If there are not enough blocks for any work the worker ends. -/
def Op.step (e : BatchSettings n R N W T F) (h : History n R N M L W T F) :
    Op n R L W → Option (History n R N M L W T F)
  | environment world contexts =>
    some { h with state := { h.state with world := world, contexts := contexts } }
  | enqueue r replicaIdx =>
    if r ∈ h.admitted ∨ ∃ i, r ∈ h.outstanding i then some h
    else
      outcome (enqueueNewRequest e r replicaIdx) h.state
        (fun _ s => some { h with
          state := s
          admitted := insert r h.admitted \ newlyFailed h.state s })
        fun _ _ => none
  | construct =>
    match h.batches with
    | some _ => some h
    | none =>
      outcome (constructBatch e) h.state
        (fun batches s => some { h with
          state := s
          batches := some batches
          admitted := h.admitted \ newlyFailed h.state s })
        fun _ _ => none
  | advance =>
    outcome (advanceRequests fun i => (h.outstanding i).keys) h.state
      (fun _ s => some { h with state := s, batches := none })
      fun _ _ => none
  | release r =>
    outcome (releaseRequest e r) h.state
      (fun _ s => some { h with state := s, admitted := h.admitted.erase r })
      fun _ s => some { h with state := s }
  | takeFailed => some { h with state := finalState takeGrammarFailed h.state }

/-- The condition of an operation: there is room when a batch is constructed. -/
def Op.Fits (e : BatchSettings n R N W T F) (h : History n R N M L W T F) : Op n R L W → Prop
  | construct => Room e h.admitted h.state
  | _ => True

def run (e : BatchSettings n R N W T F) (ops : List (Op n R L W))
    (h : History n R N M L W T F) : Option (History n R N M L W T F) :=
  ops.foldlM (Op.step e) h

/-- Every operation of a run meets its condition. -/
def Roomy (e : BatchSettings n R N W T F) : List (Op n R L W) → History n R N M L W T F → Prop
  | [], _ => True
  | op :: ops, h => op.Fits e h ∧ ∀ h' ∈ op.step e h, Roomy e ops h'

instance (op : Op n R L W) (h : History n R N M L W T F) : Decidable (op.Fits e h) :=
  match op with
  | .construct => inferInstanceAs (Decidable (∀ m ∈ h.state.loraManager, _))
  | .environment _ _ => isTrue trivial
  | .enqueue _ _ => isTrue trivial
  | .advance => isTrue trivial
  | .release _ => isTrue trivial
  | .takeFailed => isTrue trivial

instance Roomy.decidable : ∀ (ops : List (Op n R L W)) (h : History n R N M L W T F),
    Decidable (Roomy e ops h)
  | [], _ => isTrue trivial
  | op :: ops, h =>
    letI := Roomy.decidable ops
    inferInstanceAs (Decidable (op.Fits e h ∧ ∀ h' ∈ op.step e h, Roomy e ops h'))

/-- Every admitted request is in exactly one place, and none is deferred.  A TG request of an
outstanding batch is in its TG queue. -/
structure InOnePlace (h : History n R N M L W T F) : Prop where
  admitted_iff : ∀ r, r ∈ h.admitted ↔ ∃ p, At h.state (outOf h.admitted h.outstanding) r p
  unique : ∀ r p q, At h.state (outOf h.admitted h.outstanding) r p →
    At h.state (outOf h.admitted h.outstanding) r q → p = q
  deferred : ∀ i, (h.state.replicas i).deferredLoraRequests.keys = []
  tg : ∀ i r, (h.outstanding i).get? r = some .tg → r ∈ h.admitted →
    r ∈ (h.state.replicas i).tgReqs

theorem Placed.inOnePlace {h : History n R N M L W T F}
    (hplaced : Placed e True h.admitted h.outstanding h.state) : InOnePlace h := by
  obtain ⟨loc, hloc, hadmitted, hdeferred⟩ := hplaced.located
  refine ⟨fun r => ?_, fun r p q hp hq => hplaced.unique hp hq, fun i => ?_,
    fun i r hget hA => hplaced.tg i r .tg hget (by simp) hA⟩
  · rw [← hadmitted, Option.isSome_iff_exists]
    exact exists_congr fun p => (hloc.at_iff r p).symm
  · refine eq_nil_iff_forall_not_mem.mpr fun r hr => ?_
    exact hdeferred trivial r i ((hloc.at_iff r (.queue .deferred i)).mp hr)

/-- **Every operation keeps each admitted request in one place.** -/
theorem Op.step_placed {h : History n R N M L W T F} {op : Op n R L W}
    (hplaced : Placed e clear h.admitted h.outstanding h.state) (hfits : clear → op.Fits e h) :
    ∀ h' ∈ op.step e h, Placed e clear h'.admitted h'.outstanding h'.state := by
  cases op with
  | environment world contexts =>
    rintro _ ⟨⟩
    exact hplaced.congr
  | enqueue r replicaIdx =>
    rw [step]
    split_ifs with hnew
    · rintro _ ⟨⟩
      exact hplaced
    rw [not_or, not_exists] at hnew
    have hspec := hplaced.enqueueNewRequest hnew.1 (fun i => get?_eq_none.mpr (hnew.2 i)) replicaIdx
    refine Spec.mem_outcome (hspec.mono fun _ s' hplaced' => ?_)
    rintro _ ⟨⟩
    exact hplaced'
  | construct =>
    rw [step]
    cases hbatches : h.batches with
    | some batches =>
      rintro _ ⟨⟩
      exact hplaced
    | none =>
      rw [History.outstanding_of_none hbatches] at hplaced
      refine Spec.mem_outcome
        ((hplaced.constructBatch hfits).mono (fun batches s' hplaced' => ?_) (by simp))
      rintro _ ⟨⟩
      exact hplaced'.1
  | advance =>
    refine Spec.mem_outcome (hplaced.advanceRequests.mono fun _ s' hplaced' => ?_)
    rintro _ ⟨⟩
    exact hplaced'
  | release r =>
    refine Spec.mem_outcome ((hplaced.releaseRequest r).mono ?_ ?_)
    · rintro _ s' hplaced' _ ⟨⟩
      exact hplaced'
    · rintro _ _ rfl _ ⟨⟩
      exact hplaced
  | takeFailed =>
    rintro _ ⟨⟩
    exact hplaced.congr

/-- In every run each admitted request is in one place, if it may be that of the deferred ones. -/
theorem run_keeps {ops : List (Op n R L W)} {h h' : History n R N M L W T F}
    (hplaced : Placed e clear h.admitted h.outstanding h.state) (hroom : clear → Roomy e ops h)
    (hrun : run e ops h = some h') : Placed e clear h'.admitted h'.outstanding h'.state := by
  induction ops generalizing h with
  | nil =>
    obtain rfl := Option.some.inj hrun
    exact hplaced
  | cons op ops ih =>
    rw [run, foldlM_cons] at hrun
    obtain ⟨h₁, hstep, hrest⟩ := Option.bind_eq_some_iff.mp hrun
    exact ih (op.step_placed hplaced (fun hclear => (hroom hclear).1) h₁ hstep)
      (fun hclear => (hroom hclear).2 h₁ hstep) hrest

/-- A new constructor has no requests. -/
theorem init_placed {world : W} {contexts : R → GenerationContext R L}
    {loraManager : Option (LoRAManager N M)}
    (hinit : init world contexts loraManager = .ok s) : Placed e clear ∅ (fun _ => .empty) s := by
  rw [init] at hinit
  split at hinit
  · exact absurd hinit (by simp [throw, throwThe, MonadExceptOf.throw])
  rename_i hsingle
  obtain rfl := Except.ok.inj hinit
  refine ⟨⟨fun _ => none, ⟨fun r p => ?_, fun r => rfl⟩, by simp, by simp⟩, ⟨?_, fun r => rfl, ?_⟩,
    fun i r t hget => absurd hget (by simp [empty, get?])⟩
  · refine iff_of_false (fun hat => ?_) (by simp)
    cases p with
    | grammar | pool => exact not_mem_nil hat
    | queue k j => cases k <;> exact not_mem_nil hat
    | onloading j => simp [At, empty, get?] at hat
    | out j => exact absurd hat.1 (Finset.notMem_empty r)
  · by_cases hn : n = 0
    · exact .inr hn
    · refine .inl (Option.not_isSome_iff_eq_none.mp fun hsome => hsingle ⟨hsome, ?_⟩)
      omega
  · exact fun i name hname => absurd hname (Finset.notMem_empty name)

/-- One replica, with a batch of at most four tokens. -/
def oneReplica : BatchSettings 0 ℕ ℕ Unit Unit ℚ where
  schedulerConfig := {
    maxBatchSize := 4
    targetTokensPerBatchCe := 8
    maxSeqLen := some 4
    maxBatchTotalTokens := some 4
    enableChunkedPrefill := true
    chunkedPrefillMinChunkSize := 0
    enableInFlightBatching := false
    dpCeBalanceTimeoutMs := -1
    dpCeBalanceThreshold := 4 / 5
    dpCeBalanceEnableDynamicChunkSize := false
    maxBatchSize_pos := by decide
    targetTokensPerBatchCe_pos := Nat.succ_pos _
    maxSeqLen_le := by simp
    maxBatchSize_le := by decide }
  batchSchedulingStrategy := .perReplica
  tgPriorityKvPercentage := 90
  services := idleServices 0 fun _ => 0
  modelName := id

/-- A new constructor with one slot for the adapters 0 and 1.  Every request has three tokens. -/
def oneSlot : TextBatchConstructor 0 ℕ ℕ Unit Unit Unit Unit ℚ where
  world := ()
  contexts := fun r => .init r (prompt 3) 100 ⟨[], []⟩ none
  loraManager := some (.init 1 fun name => if name < 2 then some () else none)
  grammarPending := .empty
  grammarFailed := []
  replicas := fun _ => ⟨.empty, .empty, ∅, .empty⟩
  boundRequests := .empty
  requestIdToLoraName := .empty
  onloadingReqs := .empty
  cePending := .empty
  ceArrival := .empty
  ceDeferredReplicas := ∅
  ceStepQuota := none

/-- Requests are enqueued and a batch is constructed. -/
def firstBatch (requests : List ℕ) : List (Op 0 ℕ Unit Unit) :=
  requests.map (fun r => .enqueue r none) ++ [.construct]

/-- The batch keeps to the total and, with chunked prefill, to its capacity. -/
def Fits (e : BatchSettings n R N W T F) (total : ℤ) (batch : ReplicaBatch R)
    (s : TextBatchConstructor n R N M L W T F) : Prop :=
  (ceLength e batch s : ℤ) ≤ total ∧ (e.schedulerConfig.enableChunkedPrefill = true →
    ∃ capacity, batch.activeCapacity = some capacity ∧ activeTokens batch s ≤ capacity)

/-- One replica with chunks of six tokens and a total of eight. -/
def sixTokens : BatchSettings 0 ℕ ℕ Unit Unit ℚ :=
  { oneReplica with schedulerConfig := { oneReplica.schedulerConfig with
      maxBatchSize := 2
      targetTokensPerBatchCe := 6
      maxSeqLen := some 8
      maxBatchTotalTokens := some 8
      maxBatchSize_pos := by decide
      targetTokensPerBatchCe_pos := by decide
      maxSeqLen_le := by simp
      maxBatchSize_le := by decide } }

/-- Two requests with prompts of the given lengths. -/
def twoRequests (first second : ℕ) : List (Op 0 ℕ Unit Unit) :=
  [.environment () fun r => .init r (prompt (if r = 2 then first else second)) 100 ⟨[], []⟩ none,
    .enqueue 2 none, .enqueue 3 none]

end TextBatchConstructor
