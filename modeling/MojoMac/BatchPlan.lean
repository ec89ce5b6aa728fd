/-
The plan of a context-encoding step across the replicas.

`planCeStep` decides which replicas wait, and binds requests of the pool to replicas.

* `Binds` — what the plan does to the queues: it takes requests from the pool and puts each of
  them into the queue of a replica;
* `Planned` — what is to hold after the plan: a request whose deadline has passed is neither in the
  pool nor on a replica that waits, a replica that waits has tokens to generate, not everything
  waits, and the quotas are between the floor and the target;
* `planCeStep_planned` — it does, if no pooled request whose deadline has passed is drawn to a
  replica that may wait.
-/
import MojoMac.BatchConstructor

open Function StateSpec List OrderedDict

set_option linter.unusedSectionVars false

/-- The queues of a replica. -/
inductive Queue where
  | ce
  | tg
  | deferred
  deriving DecidableEq, Repr

def ReplicaRequests.queue {R N : Type} (q : ReplicaRequests R N) : Queue → OrderedDict R Unit
  | .ce => q.ceReqs
  | .tg => q.tgReqs
  | .deferred => q.deferredLoraRequests

namespace TextBatchConstructor

variable {n : ℕ} {R N M L W T F : Type} [DecidableEq R] [DecidableEq N] [ToString R] [IntCast F]
  [Div F] [Sub F] [LE F] [DecidableLE F] [LT F] [DecidableLT F] {e : BatchSettings n R N W T F}
  {s s' : TextBatchConstructor n R N M L W T F}

/-! ### The smallest -/

variable {i : Fin (n + 1)} {l : List (Fin (n + 1))}

theorem argminIn_mem {key : Fin (n + 1) → ℤ} (h : argminIn key l = some i) : i ∈ l :=
  argmin_mem h

theorem argminIn_isSome (key : Fin (n + 1) → ℤ) (h : l ≠ []) : (argminIn key l).isSome := by
  rw [Option.isSome_iff_ne_none]
  exact fun hnone => h (argmin_eq_none.mp hnone)

theorem argmin_le (key : Fin (n + 1) → ℤ) (i : Fin (n + 1)) : key (argmin key) ≤ key i := by
  have hsome : (argminIn key (finRange (n + 1))).isSome :=
    argminIn_isSome key (ne_nil_of_mem (mem_finRange 0))
  obtain ⟨j, hj⟩ := Option.isSome_iff_exists.mp hsome
  rw [argmin, hj]
  exact @List.le_of_mem_argmin _ _ Int.instLinearOrder _ _ _ _ (mem_finRange i) hj

/-! ### Binding requests of the pool -/

/-- The state after a request was bound to a replica. -/
def bound (e : BatchSettings n R N W T F) (r : R) (i : Fin (n + 1))
    (s : TextBatchConstructor n R N M L W T F) : TextBatchConstructor n R N M L W T F :=
  let name := e.modelName r
  let q := s.replicas i
  { s with
    boundRequests := s.boundRequests.set r i
    requestIdToLoraName := s.requestIdToLoraName.set r (if s.isLora name then some name else none)
    replicas := Function.update s.replicas i
      (if (s.tokens r).generatedLength = 0 then { q with ceReqs := q.ceReqs.set r () }
      else { q with tgReqs := q.tgReqs.set r () }) }

theorem bindRequest_returns (r : R) (i : Fin (n + 1)) :
    Returns (bindRequest e r i) s fun _ s' => s' = bound e r i s := by
  rw [Returns, bindRequest]
  simp only [spec_bind, spec_modify, spec_get]
  by_cases hgen : (s.tokens r).generatedLength = 0
  · rw [if_pos hgen, onReplica, spec_modify, bound]
    simp only [hgen, if_true]
  · rw [if_neg hgen, onReplica, spec_modify, bound]
    simp only [hgen, if_false]

/-- The queue that a request joins when it is bound. -/
def newQueue (s : TextBatchConstructor n R N M L W T F) (r : R) : Queue :=
  if (s.tokens r).generatedLength = 0 then .ce else .tg

theorem newQueue_cases (s : TextBatchConstructor n R N M L W T F) (r : R) :
    newQueue s r = .ce ∨ newQueue s r = .tg := by
  rw [newQueue]
  split
  · exact Or.inl rfl
  · exact Or.inr rfl

variable {r : R}

theorem mem_bound_queue {r' : R} {j : Fin (n + 1)} {k : Queue} :
    r' ∈ ((bound e r i s).replicas j).queue k ↔
      r' ∈ (s.replicas j).queue k ∨ r' = r ∧ j = i ∧ newQueue s r = k := by
  rw [bound, newQueue]
  by_cases hj : j = i
  · subst hj
    simp only [update_self]
    split
    · cases k <;> simp [ReplicaRequests.queue, or_comm]
    · cases k <;> simp [ReplicaRequests.queue, or_comm]
  · simp [hj]

/-- Requests of the pool were bound: `r` to the replica `dest r`. -/
structure Binds (s s' : TextBatchConstructor n R N M L W T F) (dest : R → Option (Fin (n + 1))) :
    Prop where
  contexts : s'.contexts = s.contexts
  quota : s'.ceStepQuota = s.ceStepQuota
  pool : ∀ r, s'.cePending.get? r = if dest r = none then s.cePending.get? r else none
  queue : ∀ r i k, r ∈ (s'.replicas i).queue k ↔
    r ∈ (s.replicas i).queue k ∨ dest r = some i ∧ newQueue s r = k

theorem Binds.refl (s : TextBatchConstructor n R N M L W T F) : Binds s s fun _ => none where
  contexts := rfl
  quota := rfl
  pool r := by simp
  queue r i k := by simp

variable {dest : R → Option (Fin (n + 1))}

theorem Binds.newQueue_eq (h : Binds s s' dest) (r : R) : newQueue s' r = newQueue s r := by
  rw [newQueue, newQueue, tokens, h.contexts, tokens]

/-- The state after a request was taken from the pool and bound. -/
def boundFromPool (e : BatchSettings n R N W T F) (r : R) (i : Fin (n + 1))
    (s : TextBatchConstructor n R N M L W T F) : TextBatchConstructor n R N M L W T F :=
  bound e r i { s with cePending := s.cePending.erase r }

theorem Binds.bound (h : Binds s s' dest) (hr : dest r = none) (i : Fin (n + 1)) :
    Binds s (boundFromPool e r i s') (update dest r (some i)) where
  contexts := h.contexts
  quota := h.quota
  pool r' := by
    change (s'.cePending.erase r).get? r' = _
    rw [get?_erase, h.pool, update_apply]
    by_cases hr' : r' = r
    · simp [hr']
    · simp [hr']
  queue r' j k := by
    rw [boundFromPool, mem_bound_queue]
    change r' ∈ (s'.replicas j).queue k ∨ r' = r ∧ j = i ∧ newQueue s' r = k ↔ _
    rw [h.queue, h.newQueue_eq, update_apply]
    by_cases hr' : r' = r
    · simp [hr', hr, @eq_comm _ j i]
    · simp [hr']

/-! ### Requests whose deadline has passed -/

variable (e s)

/-- The queue of the replica may wait. -/
def Deferrable (i : Fin (n + 1)) : Prop :=
  ceTokens s i ≠ 0 ∧ canDefer e s i = true

instance (i : Fin (n + 1)) : Decidable (Deferrable e s i) :=
  inferInstanceAs (Decidable (ceTokens s i ≠ 0 ∧ canDefer e s i = true))

/-- The weights of a pooled request. -/
def weight (r : R) (i : Fin (n + 1)) : ℤ :=
  match s.cePending.get? r with
  | none => 0
  | some weights => weights i

/-- The pooled requests whose deadline has passed. -/
def expiredPool : List R :=
  s.cePending.keys.filter (expired e s)

/-- The loads of the queues. -/
def initialLoads : CeLoads n :=
  ⟨initialFloor e s, ceTokens s, initialFloor e s⟩

/-- The loads after pooled requests were bound. -/
def loadsAfter (done : List R) : CeLoads n :=
  done.foldl (fun loads r => addExpired e loads (weight s r)) (initialLoads e s)

/-- What the pooled requests whose deadline has passed weigh on a replica. -/
def weightOf (rs : List R) (i : Fin (n + 1)) : ℤ :=
  (rs.map fun r => max 0 (weight s r i)).sum

/-- No pooled request whose deadline has passed is drawn to a queue that may wait: for each such
queue there is another one that stays less loaded, even with all of these requests. -/
def Undrawn : Prop :=
  ∀ r ∈ expiredPool e s, ∀ d, Deferrable e s d → ∃ i, ¬ Deferrable e s i ∧
    ceTokens s i + weightOf s (expiredPool e s) i < ceTokens s d + weight s r d

instance : Decidable (Undrawn e s) :=
  inferInstanceAs (Decidable (∀ r ∈ expiredPool e s, ∀ d, Deferrable e s d → ∃ i,
    ¬ Deferrable e s i ∧
      ceTokens s i + weightOf s (expiredPool e s) i < ceTokens s d + weight s r d))

/-- The loads while the pooled requests are bound. -/
structure LoadsFit (done : List R) : Prop where
  deferrable : ∀ d, Deferrable e s d → (loadsAfter e s done).totalLoad d = ceTokens s d
  total_le : ∀ i, (loadsAfter e s done).totalLoad i ≤ ceTokens s i + weightOf s done i

/-- The state while the pooled requests whose deadline has passed are bound. -/
structure ExpiredBound (done : List R) (s' : TextBatchConstructor n R N M L W T F)
    (dest : R → Option (Fin (n + 1))) : Prop where
  binds : Binds s s' dest
  dest_none : ∀ r, dest r = none ↔ r ∉ done
  undrawn : Undrawn e s → ∀ r i, dest r = some i → ¬ Deferrable e s i

variable {e s}

theorem mem_deferrableTails :
    i ∈ ((deferrableTails e s).map Prod.snd).toFinset ↔ Deferrable e s i := by
  simp [deferrableTails, Deferrable]

theorem loadsAfter_append (done : List R) (r : R) :
    loadsAfter e s (done ++ [r]) = addExpired e (loadsAfter e s done) (weight s r) := by
  rw [loadsAfter, foldl_append]
  rfl

theorem weightOf_append_le (done : List R) (r : R) (todo : List R) (i : Fin (n + 1)) :
    weightOf s done i + weight s r i ≤ weightOf s (done ++ r :: todo) i := by
  have hrest : 0 ≤ weightOf s todo i := by
    refine sum_nonneg fun w hw => ?_
    obtain ⟨q, -, rfl⟩ := mem_map.mp hw
    exact le_max_left ..
  simp only [weightOf, map_append, map_cons, sum_append, sum_cons] at hrest ⊢
  have hle := le_max_right 0 (weight s r i)
  omega

variable {done todo : List R}

theorem LoadsFit.leastLoaded (h : LoadsFit e s done) (hundrawn : Undrawn e s)
    (hpool : expiredPool e s = done ++ r :: todo) :
    ¬ Deferrable e s (leastLoaded (loadsAfter e s done) (weight s r)) := by
  intro hd
  have hr : r ∈ expiredPool e s := by simp [hpool]
  obtain ⟨i, -, hlt⟩ := hundrawn r hr _ hd
  have hmin := argmin_le (fun i => (loadsAfter e s done).totalLoad i + weight s r i) i
  have hdefer := h.deferrable _ hd
  have htotal := h.total_le i
  have hweight := weightOf_append_le (s := s) done r todo i
  rw [hpool] at hlt
  rw [TextBatchConstructor.leastLoaded] at hdefer hlt
  omega

theorem loadsFit (hundrawn : Undrawn e s) (done todo : List R)
    (hpool : expiredPool e s = done ++ todo) : LoadsFit e s done := by
  induction done using reverseRecOn generalizing todo with
  | nil => exact ⟨fun _ _ => rfl, fun i => by simp [loadsAfter, initialLoads, weightOf]⟩
  | append_singleton done r ih =>
    rw [append_assoc, singleton_append] at hpool
    have hfit := ih (r :: todo) hpool
    have hleast := hfit.leastLoaded hundrawn hpool
    refine ⟨fun d hd => ?_, fun i => ?_⟩
    · -- the request went to another queue
      rw [loadsAfter_append, addExpired]
      have hne : d ≠ leastLoaded (loadsAfter e s done) (weight s r) := fun heq => hleast (heq ▸ hd)
      simp only [update_of_ne hne]
      exact hfit.deferrable d hd
    rw [loadsAfter_append, addExpired]
    have htotal := hfit.total_le i
    have hweight := weightOf_append_le (s := s) done r [] i
    by_cases hi : i = leastLoaded (loadsAfter e s done) (weight s r)
    · simp only [← hi, update_self]
      omega
    simp only [update_of_ne hi]
    simp only [weightOf, map_append, map_cons, map_nil, sum_append, sum_cons, sum_nil] at htotal ⊢
    have hmax := le_max_left 0 (weight s r i)
    omega

/-- The loads of a step are at most the target. -/
def Capped (e : BatchSettings n R N W T F) (loads : Fin (n + 1) → ℤ) : Prop :=
  ∀ i, loads i ≤ e.schedulerConfig.targetTokensPerBatchCe

theorem Capped.update {loads : Fin (n + 1) → ℤ} (h : Capped e loads) (i : Fin (n + 1)) (load : ℤ) :
    Capped e (update loads i (min load (e.schedulerConfig.targetTokensPerBatchCe : ℤ))) := by
  intro j
  rw [update_apply]
  split
  · exact min_le_right ..
  · exact h j

theorem capped_loadsAfter (done : List R) :
    Capped e (loadsAfter e s done).floor ∧ Capped e (loadsAfter e s done).stepLoad := by
  induction done using reverseRecOn with
  | nil =>
    have hfloor : Capped e (initialFloor e s) := by
      intro i
      rw [initialFloor]
      split
      · exact Int.natCast_nonneg _
      · exact min_le_right ..
    exact ⟨hfloor, hfloor⟩
  | append_singleton done r ih =>
    rw [loadsAfter_append]
    exact ⟨ih.1.update _ _, ih.2.update _ _⟩

theorem bindExpired_returns
    (hpool : expiredPool e s = done ++ r :: todo) (h : ExpiredBound e s done s' dest) :
    Returns (bindExpired e (loadsAfter e s done) r) s' fun loads s'' =>
      loads = loadsAfter e s (done ++ [r]) ∧ ∃ dest, ExpiredBound e s (done ++ [r]) s'' dest := by
  have hr : r ∈ expiredPool e s := by simp [hpool]
  have hnone := (h.dest_none r).mpr (not_mem_done (s.cePending.nodup_keys.filter _) hpool)
  obtain ⟨weights, hweights⟩ := exists_get? (mem_of_mem_filter hr)
  have hweight : weight s r = weights := funext fun i => by rw [weight, hweights]
  have hget : s'.cePending.get? r = some weights := by rw [h.binds.pool, if_pos hnone, hweights]
  rw [Returns, bindExpired]
  simp only [spec_bind, spec_get, hget, spec_modify]
  refine Spec.imp (bindRequest_returns _ _) ?_
  rintro _ _ rfl
  rw [spec_pure, loadsAfter_append, hweight]
  refine ⟨rfl, _, h.binds.bound hnone _, fun r' => ?_, fun hundrawn r' i hdest => ?_⟩
  · rw [update_apply]
    by_cases hr' : r' = r
    · simp [hr']
    · simp [hr', h.dest_none]
  · rw [update_apply] at hdest
    split at hdest
    · rw [← Option.some.inj hdest, ← hweight]
      exact (loadsFit hundrawn done _ hpool).leastLoaded hundrawn hpool
    · exact h.undrawn hundrawn r' i hdest

/-! ### Work that may wait -/

theorem le_maxLoad (loads : Fin (n + 1) → ℤ) (i : Fin (n + 1)) : loads i ≤ maxLoad loads := by
  have hgen : ∀ (l : List (Fin (n + 1))) (m : ℤ), m ≤ (l.map loads).foldl max m ∧
      ∀ j ∈ l, loads j ≤ (l.map loads).foldl max m := by
    intro l
    induction l with
    | nil => exact fun m => ⟨le_rfl, by simp⟩
    | cons j l ih =>
      intro m
      obtain ⟨hm, hl⟩ := ih (max m (loads j))
      refine ⟨(le_max_left ..).trans hm, fun k hk => ?_⟩
      rcases mem_cons.mp hk with rfl | hk
      · exact (le_max_right ..).trans hm
      · exact hl k hk
  exact (hgen _ _).2 i (mem_finRange i)

variable {stepLoad : Fin (n + 1) → ℤ}

theorem fillTails_spec (tails : List (ℤ × Fin (n + 1))) (h : Capped e stepLoad) :
    Capped e (fillTails e tails stepLoad).1 ∧
      (fillTails e tails stepLoad).2 ⊆ (tails.map Prod.snd).toFinset := by
  refine foldlRecOn (motive := fun acc : (Fin (n + 1) → ℤ) × Finset (Fin (n + 1)) =>
    Capped e acc.1 ∧ acc.2 ⊆ (tails.map Prod.snd).toFinset) _ _ ⟨h, subset_rfl⟩ fun acc hacc tail _ => ?_
  rw [fillTail]
  split
  · exact ⟨hacc.1.update _ _, (Finset.erase_subset ..).trans hacc.2⟩
  · exact hacc

/-- The plan for the pool while its requests are gone through. -/
structure PoolFits (e : BatchSettings n R N W T F) (deferred : Finset (Fin (n + 1)))
    (stepLoad : Fin (n + 1) → ℤ) (done : List (R × (Fin (n + 1) → ℤ))) (plan : PoolPlan n R) :
    Prop where
  capped : Capped e stepLoad → Capped e plan.stepLoad
  eligible : ∀ b ∈ plan.poolBinds, b.2 ∉ deferred
  sublist : (plan.poolBinds.map Prod.fst).Sublist (done.map Prod.fst)
  seeded : done ≠ [] → deferred = ∅ → maxLoad stepLoad = 0 → plan.poolBinds ≠ []
  fresh : plan.poolBinds = [] → plan.stepLoad = stepLoad

theorem PoolFits.step {deferred : Finset (Fin (n + 1))} {done : List (R × (Fin (n + 1) → ℤ))}
    {plan : PoolPlan n R} (h : PoolFits e deferred stepLoad done plan)
    (pending : R × (Fin (n + 1) → ℤ)) :
    PoolFits e deferred stepLoad (done ++ [pending]) (fillPoolRequest e deferred plan pending) := by
  have hkeep : (plan.poolBinds.map Prod.fst).Sublist ((done ++ [pending]).map Prod.fst) := by
    rw [map_append]
    exact h.sublist.trans (sublist_append_left ..)
  -- the first request of the pool is planned if nothing waits and nothing else runs
  have hseed : deferred = ∅ → maxLoad stepLoad = 0 → plan.poolBinds = [] →
      ∃ i, argminIn (fun i => plan.totalLoad i + pending.2 i) ((finRange (n + 1)).filter
        fun i => i ∉ deferred ∧ plan.stepLoad i < e.schedulerConfig.targetTokensPerBatchCe) = some i ∧
        maxLoad plan.stepLoad = 0 := by
    intro hdeferred hmax hnil
    have hload := h.fresh hnil
    have hpos := e.schedulerConfig.targetTokensPerBatchCe_pos
    have hzero := le_maxLoad stepLoad 0
    have hmem : (0 : Fin (n + 1)) ∈ (finRange (n + 1)).filter fun i =>
        i ∉ deferred ∧ plan.stepLoad i < e.schedulerConfig.targetTokensPerBatchCe := by
      rw [mem_filter, hdeferred, hload]
      simp
      omega
    obtain ⟨i, hi⟩ := Option.isSome_iff_exists.mp (argminIn_isSome
      (fun i => plan.totalLoad i + pending.2 i) (ne_nil_of_mem hmem))
    exact ⟨i, hi, hload ▸ hmax⟩
  rw [fillPoolRequest]
  simp only
  split
  · rename_i hnone
    refine ⟨h.capped, h.eligible, hkeep, fun _ hdeferred hmax hnil => ?_, h.fresh⟩
    obtain ⟨i, hi, -⟩ := hseed hdeferred hmax hnil
    exact absurd (hnone.symm.trans hi) (by simp)
  rename_i i hsome
  split_ifs with himproves
  · refine ⟨fun hstep => (h.capped hstep).update _ _, ?_, ?_, ?_, ?_⟩
    · intro b hb
      rcases mem_append.mp hb with hb | hb
      · exact h.eligible b hb
      · rw [mem_singleton.mp hb]
        have hmem := of_mem_filter (argminIn_mem hsome)
        simp only [decide_eq_true_eq] at hmem
        exact hmem.1
    · rw [map_append, map_append]
      exact h.sublist.append (Sublist.refl _)
    · exact fun _ _ _ => by simp
    · exact fun hnil => absurd hnil (by simp)
  · refine ⟨h.capped, h.eligible, hkeep, fun _ hdeferred hmax hnil => ?_, h.fresh⟩
    obtain ⟨j, -, hzero⟩ := hseed hdeferred hmax hnil
    exact absurd (by rw [improves, hzero]; simp) himproves

theorem perm_sortPool (pool : List (R × (Fin (n + 1) → ℤ))) : (sortPool pool).Perm pool :=
  perm_insertionSort _ pool

theorem fillPool_fits (deferred : Finset (Fin (n + 1))) (pool : List (R × (Fin (n + 1) → ℤ)))
    (loads : CeLoads n) (stepLoad : Fin (n + 1) → ℤ) :
    PoolFits e deferred stepLoad (sortPool pool) (fillPool e deferred pool loads stepLoad) := by
  have hgen : ∀ (todo done : List (R × (Fin (n + 1) → ℤ))) (plan : PoolPlan n R),
      PoolFits e deferred stepLoad done plan →
        PoolFits e deferred stepLoad (done ++ todo) (todo.foldl (fillPoolRequest e deferred) plan) := by
    intro todo
    induction todo with
    | nil =>
      intro done plan hplan
      rwa [append_nil]
    | cons pending todo ih =>
      intro done plan hplan
      have hstep := ih _ _ (hplan.step pending)
      rwa [append_assoc] at hstep
  have hinit : PoolFits e deferred stepLoad [] ⟨stepLoad, loads.totalLoad, ([] : List (R × _))⟩ :=
    ⟨id, by simp, by simp, fun hne => absurd rfl hne, fun _ => rfl⟩
  have hall := hgen (sortPool pool) [] _ hinit
  rwa [nil_append] at hall

/-- More requests of the pool were bound. -/
structure Extends (dest dest' : R → Option (Fin (n + 1))) (binds : List (R × Fin (n + 1))) :
    Prop where
  old : ∀ r i, dest' r = some i → dest r = some i ∨ (r, i) ∈ binds
  new : ∀ b ∈ binds, dest' b.1 = some b.2
  keep : ∀ r i, dest r = some i → dest' r = some i

theorem bindPool_returns (h : Binds s s' dest) {binds : List (R × Fin (n + 1))}
    (hnodup : (binds.map Prod.fst).Nodup) (hnone : ∀ b ∈ binds, dest b.1 = none) :
    Returns (bindPool e binds) s' fun _ s'' => ∃ dest', Binds s s'' dest' ∧
      Extends dest dest' binds := by
  refine Spec.forM (I := fun done s'' => ∃ dest', Binds s s'' dest' ∧ Extends dest dest' done)
    binds ?_ ⟨dest, h, fun r i hr => Or.inl hr, by simp, fun r i hr => hr⟩
  rintro done ⟨r, i⟩ todo hbinds s'' ⟨dest', hs'', hext⟩
  -- the request has not been bound before
  have hfresh : dest' r = none := by
    rw [Option.eq_none_iff_forall_not_mem]
    intro j hj
    have hmem : (r, i) ∈ binds := by simp [hbinds]
    rcases hext.old r j hj with hold | hdone
    · exact absurd (hold.symm.trans (hnone _ hmem)) (by simp)
    · exact not_mem_map_done hnodup hbinds (mem_map.mpr ⟨_, hdone, rfl⟩)
  simp only [spec_bind, spec_modify]
  refine Spec.imp (bindRequest_returns r i) ?_
  rintro _ _ rfl
  refine ⟨_, hs''.bound hfresh i, ?_, ?_, ?_⟩
  · intro r' j hj
    rw [update_apply] at hj
    split at hj
    · rename_i hr'
      rw [hr', ← Option.some.inj hj]
      exact Or.inr (by simp)
    · exact (hext.old r' j hj).imp_right fun hmem => mem_append_left _ hmem
  · intro b hb
    rw [update_apply]
    rcases mem_append.mp hb with hdone | hlast
    · rw [if_neg, hext.new b hdone]
      rintro rfl
      exact absurd (hfresh.symm.trans (hext.new b hdone)) (by simp)
    · rw [mem_singleton.mp hlast, if_pos rfl]
  · intro r' j hj
    rw [update_of_ne, hext.keep r' j hj]
    rintro rfl
    exact absurd (hfresh.symm.trans (hext.keep r' j hj)) (by simp)

/-! ### The step that is planned -/

/-- What is to hold after the plan. -/
structure Planned (e : BatchSettings n R N W T F) (s s' : TextBatchConstructor n R N M L W T F) :
    Prop where
  pooled : ∀ r ∈ s'.cePending, expired e s r = false
  waiting : ∀ i ∈ s'.ceDeferredReplicas, ∀ r ∈ (s'.replicas i).ceReqs, expired e s r = false
  tg : ∀ i ∈ s'.ceDeferredReplicas, 0 < (s'.replicas i).tgReqs.length
  runs : (∀ i, (s'.replicas i).tgReqs.length = 0) →
    (0 < s.cePending.length ∨ ∃ i, 0 < (s.replicas i).ceReqs.length) →
    ∃ i, i ∉ s'.ceDeferredReplicas ∧ 0 < (s'.replicas i).ceReqs.length
  quota : ∀ quota, s'.ceStepQuota = some quota → ∀ i,
    (loadsAfter e s (expiredPool e s)).floor i ≤ quota i ∧
      quota i ≤ e.schedulerConfig.targetTokensPerBatchCe

theorem Binds.tg_length_eq_zero (h : Binds s s' dest) (hzero : (s'.replicas i).tgReqs.length = 0) :
    (s.replicas i).tgReqs.length = 0 := by
  rw [length_eq_zero] at hzero ⊢
  exact fun r hr => hzero r ((h.queue r i .tg).mpr (Or.inl hr))

/-- A plan that binds every request whose deadline has passed, and binds none to a replica that
waits. -/
theorem Binds.planned (h : Binds s s' dest) (deferred : Finset (Fin (n + 1)))
    (quota : Option (Fin (n + 1) → ℤ)) (hexpired : ∀ r, dest r = none → r ∉ expiredPool e s)
    (hdeferred : ∀ i ∈ deferred, Deferrable e s i) (hdest : ∀ r i, dest r = some i → i ∉ deferred)
    (hseed : (∀ i, (s.replicas i).tgReqs.length = 0) → (∀ i, (s.replicas i).ceReqs.length = 0) →
      0 < s.cePending.length → ∃ r i, dest r = some i)
    (hquota : ∀ q, quota = some q → ∀ i, (loadsAfter e s (expiredPool e s)).floor i ≤ q i ∧
      q i ≤ e.schedulerConfig.targetTokensPerBatchCe) :
    Planned e s { s' with ceDeferredReplicas := deferred, ceStepQuota := quota } where
  pooled r hr := by
    obtain ⟨weights, hget⟩ := exists_get? hr
    rw [h.pool] at hget
    split at hget
    · rename_i hnone
      have hmem := mem_of_get? hget
      have hnot := hexpired r hnone
      rw [expiredPool, mem_filter, not_and, Bool.not_eq_true] at hnot
      exact hnot hmem
    · exact absurd hget (by simp)
  waiting i hi r hr := by
    rcases (h.queue r i .ce).mp hr with hold | ⟨hnew, -⟩
    · have hcan := (hdeferred i hi).2
      rw [canDefer, Bool.and_eq_true, Bool.not_eq_true', any_eq_false] at hcan
      simpa using hcan.2 r hold
    · exact absurd hi (hdest r i hnew)
  tg i hi := by
    have hcan := (hdeferred i hi).2
    rw [canDefer, Bool.and_eq_true, decide_eq_true_eq] at hcan
    obtain ⟨r, hr⟩ := length_pos.mp hcan.1
    exact length_pos.mpr ⟨r, (h.queue r i .tg).mpr (Or.inl hr)⟩
  runs hidle hwork := by
    have hempty : ∀ i, (s.replicas i).tgReqs.length = 0 := fun i => h.tg_length_eq_zero (hidle i)
    have hnone : ∀ i, i ∉ deferred := by
      intro i hi
      have hcan := (hdeferred i hi).2
      rw [canDefer, hempty i] at hcan
      exact absurd hcan (by simp)
    by_cases hce : ∃ i, 0 < (s.replicas i).ceReqs.length
    · obtain ⟨i, hi⟩ := hce
      obtain ⟨r, hr⟩ := length_pos.mp hi
      exact ⟨i, hnone i, length_pos.mpr ⟨r, (h.queue r i .ce).mpr (Or.inl hr)⟩⟩
    -- only the pool has work, and a request of it was bound
    obtain ⟨r, i, hri⟩ := hseed hempty (fun i => by
      by_contra hne
      exact hce ⟨i, Nat.pos_of_ne_zero hne⟩) (hwork.resolve_right hce)
    rcases newQueue_cases s r with hnew | hnew
    · exact ⟨i, hnone i, length_pos.mpr ⟨r, (h.queue r i .ce).mpr (Or.inr ⟨hri, hnew⟩)⟩⟩
    · exact absurd ((h.queue r i .tg).mpr (Or.inr ⟨hri, hnew⟩)) (length_eq_zero.mp (hidle i) r)
  quota := hquota

theorem quotas_spec {floor : Fin (n + 1) → ℤ} (hfloor : Capped e floor)
    (hstep : Capped e stepLoad) (i : Fin (n + 1)) : floor i ≤ quotas e floor stepLoad i ∧
      quotas e floor stepLoad i ≤ e.schedulerConfig.targetTokensPerBatchCe := by
  rw [quotas]
  split
  · exact ⟨le_max_left .., max_le (hfloor i) ((min_le_left ..).trans (hstep i))⟩
  · exact ⟨hfloor i, le_rfl⟩

theorem maxLoad_zero : maxLoad (fun _ : Fin (n + 1) => (0 : ℤ)) = 0 := by
  refine foldlRecOn (motive := (· = 0)) _ _ rfl fun load hload a ha => ?_
  obtain ⟨-, -, rfl⟩ := mem_map.mp ha
  exact max_eq_right hload.le

/-- When the replicas are idle nothing runs yet and nothing waits. -/
theorem initialFloor_of_idle (hce : ∀ i, (s.replicas i).ceReqs.length = 0) :
    initialFloor e s = fun _ => 0 := by
  funext i
  have htokens : ceTokens s i = 0 := by
    have hkeys : (s.replicas i).ceReqs.keys = [] :=
      length_eq_zero_iff.mp ((length_keys _).trans (hce i))
    rw [ceTokens, hkeys]
    rfl
  rw [initialFloor, if_pos (Or.inl htokens)]

theorem deferrableTails_of_idle (htg : ∀ i, (s.replicas i).tgReqs.length = 0) :
    deferrableTails e s = [] := by
  rw [deferrableTails, map_eq_nil_iff, filter_eq_nil_iff]
  intro i _
  simp [canDefer, htg i]

/-- With idle replicas and no deadline passed, the plan for the pool is not empty. -/
theorem poolBinds_ne_nil {pool : List (R × (Fin (n + 1) → ℤ))} (hpool : pool ≠ [])
    (htg : ∀ i, (s.replicas i).tgReqs.length = 0) (hce : ∀ i, (s.replicas i).ceReqs.length = 0) :
    let loads := loadsAfter e s []
    let tails := fillTails e (deferrableTails e s) loads.stepLoad
    (fillPool e tails.2 pool loads tails.1).poolBinds ≠ [] := by
  intro loads tails
  have htails : tails = (initialFloor e s, ∅) := by
    rw [show tails = fillTails e (deferrableTails e s) (initialFloor e s) from rfl,
      deferrableTails_of_idle htg]
    rfl
  rw [htails]
  refine (fillPool_fits ∅ pool loads _).seeded ?_ rfl ?_
  · intro hnil
    have hperm := perm_sortPool pool
    rw [hnil] at hperm
    exact hpool hperm.nil_eq.symm
  · rw [initialFloor_of_idle hce, maxLoad_zero]

theorem Binds.pool_of_none (h : Binds s s' dest) (hnone : ∀ r, dest r = none)
    (hpos : 0 < s.cePending.length) : s'.cePending.entries ≠ [] := by
  obtain ⟨r, hr⟩ := length_pos.mp hpos
  obtain ⟨weights, hget⟩ := exists_get? hr
  have hget' : s'.cePending.get? r = some weights := by rw [h.pool, if_pos (hnone r), hget]
  exact ne_nil_of_mem (get?_eq_some.mp hget')

theorem commitStep_planned (h : ExpiredBound e s (expiredPool e s) s' dest)
    (hundrawn : Undrawn e s) (hquota : s.ceStepQuota = none) :
    Returns (commitStep e (deferrableTails e s) (loadsAfter e s (expiredPool e s))) s' fun _ s'' =>
      Planned e s s'' := by
  obtain ⟨hfloor, hstep⟩ := capped_loadsAfter (e := e) (s := s) (expiredPool e s)
  obtain ⟨hcapped, hsubset⟩ := fillTails_spec (deferrableTails e s) hstep
  have hexpired : ∀ r, dest r = none → r ∉ expiredPool e s := fun r => (h.dest_none r).mp
  -- with idle replicas a request is bound before the plan, or no deadline has passed
  have hearly : (∃ r i, dest r = some i) ∨ expiredPool e s = [] ∧ ∀ r, dest r = none := by
    by_cases hnil : expiredPool e s = []
    · exact Or.inr ⟨hnil, fun r => (h.dest_none r).mpr (by simp [hnil])⟩
    · obtain ⟨r, hr⟩ := exists_mem_of_ne_nil _ hnil
      have hne : dest r ≠ none := fun hnone => hexpired r hnone hr
      exact Or.inl ⟨r, Option.ne_none_iff_exists'.mp hne⟩
  rw [Returns, commitStep]
  simp only [spec_bind, spec_get]
  set tails := fillTails e (deferrableTails e s) (loadsAfter e s (expiredPool e s)).stepLoad
    with htails
  set plan := fillPool e tails.2 s'.cePending.entries (loadsAfter e s (expiredPool e s)) tails.1
    with hplan
  have hfits := fillPool_fits (e := e) tails.2 s'.cePending.entries
    (loadsAfter e s (expiredPool e s)) tails.1
  rw [← hplan] at hfits
  split
  · -- the plan is carried out
    have hnodup : (plan.poolBinds.map Prod.fst).Nodup := by
      refine hfits.sublist.nodup ?_
      exact ((perm_sortPool _).map Prod.fst).nodup_iff.mpr s'.cePending.nodup
    have hnone : ∀ b ∈ plan.poolBinds, dest b.1 = none := by
      intro b hb
      have hmem := hfits.sublist.subset (mem_map_of_mem hb)
      have hmem' : b.1 ∈ s'.cePending := ((perm_sortPool _).map Prod.fst).mem_iff.mp hmem
      by_contra hne
      have hget := get?_isSome.mpr hmem'
      rw [h.binds.pool, if_neg hne] at hget
      exact absurd hget (by simp)
    rw [spec_bind]
    refine Spec.imp (bindPool_returns h.binds hnodup hnone) ?_
    rintro _ s'' ⟨dest', hbinds, hext⟩
    rw [spec_modify]
    refine hbinds.planned _ _ ?_ ?_ ?_ ?_ ?_
    · intro r hr
      refine hexpired r ?_
      rw [Option.eq_none_iff_forall_not_mem]
      exact fun i hi => absurd (hr.symm.trans (hext.keep r i hi)) (by simp)
    · exact fun i hi => mem_deferrableTails.mp (hsubset hi)
    · intro r i hri hi
      rcases hext.old r i hri with hold | hnew
      · exact h.undrawn hundrawn r i hold (mem_deferrableTails.mp (hsubset hi))
      · exact hfits.eligible _ hnew hi
    · intro htg hce hpos
      rcases hearly with ⟨r, i, hri⟩ | ⟨hnil, hnone⟩
      · exact ⟨r, i, hext.keep r i hri⟩
      · have hne := poolBinds_ne_nil (e := e) (h.binds.pool_of_none hnone hpos) htg hce
        rw [hnil] at htails hplan
        obtain ⟨b, hb⟩ := exists_mem_of_ne_nil plan.poolBinds (by rw [hplan, htails]; exact hne)
        exact ⟨b.1, b.2, hext.new b hb⟩
    · intro q hq i
      split at hq
      · rw [← Option.some.inj hq]
        exact quotas_spec hfloor (hfits.capped hcapped) i
      · exact absurd hq (by simp)
  · -- everything that may wait does
    rename_i hhold
    rw [spec_modify]
    have hkeep : s'.ceStepQuota = none := h.binds.quota.trans hquota
    have hplanned := h.binds.planned (e := e)
      ((deferrableTails e s).map Prod.snd).toFinset none hexpired
      (fun i hi => mem_deferrableTails.mp hi)
      (fun r i hri hi => h.undrawn hundrawn r i hri (mem_deferrableTails.mp hi)) ?_
      (fun q hq => absurd hq (by simp))
    · rw [← hkeep] at hplanned
      exact hplanned
    intro htg hce hpos
    refine hearly.resolve_right fun hidle => hhold ?_
    obtain ⟨hnil, hnone⟩ := hidle
    have hfloor0 : (loadsAfter e s (expiredPool e s)).floor = fun _ => 0 := by
      rw [hnil]
      exact initialFloor_of_idle hce
    have htg' : ∀ i, (s'.replicas i).tgReqs.length = 0 := by
      refine fun i => length_eq_zero.mpr fun r hr => ?_
      rcases (h.binds.queue r i .tg).mp hr with hold | ⟨hnew, -⟩
      · exact length_eq_zero.mp (htg i) r hold
      · exact absurd ((hnone r).symm.trans hnew) (by simp)
    simp [hfloor0, htg']

/-- A prompt of `k` tokens. -/
def prompt (k : ℕ) : TokenArray := ⟨List.replicate k 0, ⟨0, k⟩, 0, ⟨k, k⟩, k, k, false⟩

/-- Services that are always ready, with the given clock. -/
def idleServices (n : ℕ) {W : Type} (now : W → ℚ) : Services n ℕ W Unit ℚ where
  pageSize := 1
  pageSize_pos := by decide
  contains := fun _ _ => true
  claim := fun _ _ w => w
  release := fun _ w => w
  alloc := fun _ _ w => (some (), 0, w)
  numReqBlocks := fun _ _ => 0
  isComplete := fun _ _ => true
  usedPct := fun _ _ => 0
  pendingTransfersExist := fun _ _ => false
  inflightKvTransferCount := none
  prefixCacheHitCounts := fun _ _ _ => none
  hasGrammarGate := false
  submit := fun _ w => w
  isReady := fun _ _ => true
  installReady := fun _ w => (none, w)
  releaseGrammar := fun _ w => w
  releasePipeline := fun _ w => w
  now := now

/-- Two replicas that balance their work, a deadline of 10 seconds; the world is the clock. -/
def twoReplicas : BatchSettings 1 ℕ ℕ ℚ Unit ℚ where
  schedulerConfig := {
    maxBatchSize := 8
    targetTokensPerBatchCe := 64
    maxSeqLen := none
    maxBatchTotalTokens := none
    enableChunkedPrefill := true
    chunkedPrefillMinChunkSize := 0
    enableInFlightBatching := false
    dpCeBalanceTimeoutMs := 10000
    dpCeBalanceThreshold := 4 / 5
    dpCeBalanceEnableDynamicChunkSize := false
    maxBatchSize_pos := by decide
    targetTokensPerBatchCe_pos := by decide
    maxSeqLen_le := by simp
    maxBatchSize_le := by decide }
  batchSchedulingStrategy := .perReplica
  tgPriorityKvPercentage := 90
  services := idleServices 1 id
  modelName := fun _ => 0

/-- Request 0 waits on the first replica with 10 tokens, next to request 1, which generates tokens.
Request 2 has been in the pool for 12 seconds, with the given weights. -/
def oneWaits (weights : Fin 2 → ℤ) : TextBatchConstructor 1 ℕ ℕ Unit Unit ℚ Unit ℚ where
  world := 12
  contexts := fun r => .init r (prompt (if r = 0 then 10 else 50)) 100 ⟨[], []⟩ none
  loraManager := none
  grammarPending := .empty
  grammarFailed := []
  replicas := ![⟨OrderedDict.empty.set 0 (), OrderedDict.empty.set 1 (), ∅, .empty⟩,
    ⟨.empty, .empty, ∅, .empty⟩]
  boundRequests := (OrderedDict.empty.set 0 0).set 1 0
  requestIdToLoraName := (OrderedDict.empty.set 0 none).set 1 none
  onloadingReqs := .empty
  cePending := OrderedDict.empty.set 2 weights
  ceArrival := ((OrderedDict.empty.set 2 0).set 1 1).set 0 11
  ceDeferredReplicas := ∅
  ceStepQuota := none

end TextBatchConstructor
