/-
The invariant of the batch constructor, and what a batch does to it.

* `Placed` — the invariant: each admitted request is in one place, and none waits for a slot for
  its adapter;
* `Room` — the adapters of the admitted requests fit into the slots;
* `Kept.ceOutcome`, `Kept.tgOutcome` — an iteration of a loop keeps the invariant;
* `Placed.readmitted`, `Placed.promote`, `Placed.plan` — what comes before the batches keeps it.
-/
import MojoMac.BatchPlaces

open Function StateSpec List OrderedDict

set_option linter.unusedSectionVars false

namespace TextBatchConstructor

variable {n : ℕ} {R N M L W T F : Type} [DecidableEq R] [DecidableEq N] [ToString R] [IntCast F]
  [Div F] [Sub F] [LE F] [DecidableLE F] [LT F] [DecidableLT F] {e : BatchSettings n R N W T F}
  {s s' : TextBatchConstructor n R N M L W T F} {A : Finset R}
  {batches : Fin (n + 1) → OrderedDict R RequestType} {clear : Prop} {r : R} {i : Fin (n + 1)}

/-! ### Adapters -/

/-- The adapter that a request uses. -/
def adapter (e : BatchSettings n R N W T F) (s : TextBatchConstructor n R N M L W T F) (r : R) :
    Option N :=
  if s.isLora (e.modelName r) then some (e.modelName r) else none

/-- The adapters of the bound requests are known, and only these are protected.  There are adapters
on a single replica only. -/
structure Named (e : BatchSettings n R N W T F) (s : TextBatchConstructor n R N M L W T F) :
    Prop where
  single : s.loraManager = none ∨ n = 0
  names : ∀ r, s.requestIdToLoraName.get? r = (s.boundRequests.get? r).map fun _ => adapter e s r
  protects : ∀ i name, name ∈ (s.replicas i).activeLoras →
    some name ∈ s.requestIdToLoraName.values

theorem SameLoras.isLora (h : SameLoras s.loraManager s'.loraManager) (name : N) :
    s'.isLora name = s.isLora name := by
  have hloras := h.1
  rw [TextBatchConstructor.isLora, TextBatchConstructor.isLora]
  cases hs : s.loraManager with
  | none =>
    cases hs' : s'.loraManager with
    | none => rfl
    | some m' => simp [hs, hs'] at hloras
  | some m =>
    cases hs' : s'.loraManager with
    | none => simp [hs, hs'] at hloras
    | some m' =>
      rw [hs, hs', Option.map_some, Option.map_some, Option.some.injEq] at hloras
      simp only [LoRAManager.isLora, hloras]

theorem SameLoras.eq_none (h : SameLoras s.loraManager s'.loraManager)
    (hnone : s.loraManager = none) : s'.loraManager = none := by
  have hloras := h.1
  rw [hnone, Option.map_none] at hloras
  exact Option.map_eq_none_iff.mp hloras

theorem Named.congr (h : Named e s)
    (hactive : ∀ i, (s'.replicas i).activeLoras = (s.replicas i).activeLoras)
    (hnames : s'.requestIdToLoraName = s.requestIdToLoraName := by rfl)
    (hbound : s'.boundRequests = s.boundRequests := by rfl)
    (hsame : SameLoras s.loraManager s'.loraManager := by exact SameLoras.refl _) : Named e s' where
  single := h.single.imp_left hsame.eq_none
  names r := by rw [hnames, hbound, h.names, adapter, adapter, hsame.isLora]
  protects i name hname := by
    rw [hnames]
    exact h.protects i name (hactive i ▸ hname)

/-- The adapters of the admitted requests fit into the slots. -/
def Room (e : BatchSettings n R N W T F) (A : Finset R)
    (s : TextBatchConstructor n R N M L W T F) : Prop :=
  ∀ m ∈ s.loraManager,
    ((A.filter fun r => m.isLora (e.modelName r) = true).image e.modelName).card ≤ m.maxNumLoras

theorem Room.congr (h : Room e A s) (hsame : SameLoras s.loraManager s'.loraManager) :
    Room e A s' := by
  intro m' hm'
  obtain ⟨hloras, hmax⟩ := hsame
  rw [Option.mem_def] at hm'
  rw [hm', Option.map_some] at hloras hmax
  obtain ⟨m, hm, hmloras⟩ := Option.map_eq_some_iff.mp hloras.symm
  have hmmax : m.maxNumLoras = m'.maxNumLoras := by
    rw [hm, Option.map_some] at hmax
    exact (Option.some.inj hmax).symm
  have hroom := h m hm
  simp only [LoRAManager.isLora, hmloras, hmmax] at hroom
  exact hroom

/-- With room for all of them the adapter of an admitted request can be activated. -/
theorem Named.canAllocate (h : Named e s) (hroom : Room e A s)
    (hbound : ∀ r ∈ s.boundRequests, r ∈ A) (hr : r ∈ A) {manager : LoRAManager N M}
    (hmanager : s.loraManager = some manager) (i : Fin (n + 1)) :
    canAllocateLoraRequest (e.modelName r) (s.replicas i).activeLoras manager = true := by
  by_contra hno
  simp only [canAllocateLoraRequest, Bool.or_eq_true, Bool.not_eq_eq_eq_not, Bool.not_true,
    decide_eq_true_eq, not_or, Bool.not_eq_false, not_le] at hno
  obtain ⟨⟨⟨hlora, hnew⟩, -⟩, hlt⟩ := hno
  -- the protected adapters and the new one are adapters of admitted requests
  have hsubset : insert (e.modelName r) (s.replicas i).activeLoras ⊆
      (A.filter fun r => manager.isLora (e.modelName r) = true).image e.modelName := by
    intro name hname
    rw [Finset.mem_image]
    rcases Finset.mem_insert.mp hname with rfl | hactive
    · exact ⟨r, Finset.mem_filter.mpr ⟨hr, hlora⟩, rfl⟩
    obtain ⟨r', hr'⟩ := mem_values.mp (h.protects i name hactive)
    rw [h.names] at hr'
    obtain ⟨j, hj, hadapter⟩ := Option.map_eq_some_iff.mp hr'
    have hsame : s.isLora (e.modelName r') = manager.isLora (e.modelName r') := by
      rw [isLora, hmanager]
    rw [adapter, hsame] at hadapter
    split at hadapter
    · rename_i hlora'
      have hmem := hbound r' (mem_of_get? hj)
      exact ⟨r', Finset.mem_filter.mpr ⟨hmem, hlora'⟩, Option.some.inj hadapter⟩
    · exact absurd hadapter (by simp)
  have hcard := Finset.card_le_card hsubset
  rw [Finset.card_insert_of_notMem hnew] at hcard
  have := hroom manager hmanager
  omega

/-! ### The invariant -/

/-- The context-encoding requests of the batches that are still admitted. -/
def outOf (A : Finset R) (batches : Fin (n + 1) → OrderedDict R RequestType) (i : Fin (n + 1)) :
    Set R :=
  { r | r ∈ A ∧ (batches i).get? r = some .ce }

theorem mem_outOf : r ∈ outOf A batches i ↔ r ∈ A ∧ (batches i).get? r = some .ce := Iff.rfl

/-- The admitted requests are in one place each.  If `clear` holds, none of them is deferred. -/
structure Placed (e : BatchSettings n R N W T F) (clear : Prop) (A : Finset R)
    (batches : Fin (n + 1) → OrderedDict R RequestType)
    (s : TextBatchConstructor n R N M L W T F) : Prop where
  located : ∃ loc, Located s (outOf A batches) loc ∧ (∀ r, (loc r).isSome ↔ r ∈ A) ∧
    (clear → ∀ r i, loc r ≠ some (.queue .deferred i))
  named : Named e s
  tg : ∀ i r t, (batches i).get? r = some t → t ≠ .ce → r ∈ A → r ∈ (s.replicas i).tgReqs

variable {A' : Finset R} {batches' : Fin (n + 1) → OrderedDict R RequestType} {q p : Place n}

section

variable (h : Placed e clear A batches s)

include h

theorem Placed.bound_mem : ∀ r ∈ s.boundRequests, r ∈ A := by
  obtain ⟨loc, hloc, hadmitted, -⟩ := h.located
  intro r hr
  obtain ⟨j, hj⟩ := exists_get? hr
  rw [hloc.bound, Option.bind_eq_some_iff] at hj
  obtain ⟨p, hp, -⟩ := hj
  exact (hadmitted r).mp (Option.isSome_of_eq_some hp)

/-- One request is in another place, or comes or leaves. -/
theorem Placed.relocate {q : Option (Place n)} (hq : clear → ∀ j, q ≠ some (.queue .deferred j))
    (hr : q.isSome ↔ r ∈ A') (hA : ∀ r' ≠ r, r' ∈ A' ↔ r' ∈ A)
    (hlocated : ∀ loc, Located s (outOf A batches) loc → (∀ r, (loc r).isSome ↔ r ∈ A) →
      Located s' (outOf A' batches') (update loc r q)) (hnamed : Named e s')
    (htg : ∀ i r t, (batches' i).get? r = some t → t ≠ .ce → r ∈ A' → r ∈ (s'.replicas i).tgReqs) :
    Placed e clear A' batches' s' := by
  obtain ⟨loc, hloc, hadmitted, hdeferred⟩ := h.located
  refine ⟨⟨_, hlocated loc hloc hadmitted, fun r' => ?_, fun hclear r' j => ?_⟩, hnamed, htg⟩
  · by_cases hr' : r' = r
    · rw [hr', update_self, hr]
    · rw [update_of_ne hr', hadmitted, hA r' hr']
  · by_cases hr' : r' = r
    · rw [hr', update_self]
      exact hq hclear j
    · rw [update_of_ne hr']
      exact hdeferred hclear r' j

/-- Two places of one request are the same. -/
theorem Placed.unique (hp : At s (outOf A batches) r p)
    (hq : At s (outOf A batches) r q) : p = q := by
  obtain ⟨loc, hloc, -, -⟩ := h.located
  exact hloc.eq ((hloc.at_iff r p).mp hp) hq

theorem Placed.mem (hp : At s (outOf A batches) r p) : r ∈ A := by
  obtain ⟨loc, hloc, hadmitted, -⟩ := h.located
  exact (hadmitted r).mp (Option.isSome_of_eq_some ((hloc.at_iff r p).mp hp))

/-- A request moves. -/
theorem Placed.move (hp : At s (outOf A batches) r p) (hq : clear → ∀ j, q ≠ .queue .deferred j)
    (hlocated : ∀ loc, Located s (outOf A batches) loc → loc r = some p →
      Located s' (outOf A batches') (update loc r (some q))) (hnamed : Named e s')
    (htg : ∀ i r t, (batches' i).get? r = some t → t ≠ .ce → r ∈ A → r ∈ (s'.replicas i).tgReqs) :
    Placed e clear A batches' s' :=
  h.relocate (fun hclear j heq => hq hclear j (Option.some.inj heq)) (by simp [h.mem hp])
    (fun _ _ => Iff.rfl) (fun loc hloc _ => hlocated loc hloc ((hloc.at_iff r p).mp hp)) hnamed htg

/-- A request of the CE queue moves; the TG requests of the batches are others. -/
theorem Placed.moveFromCe (hp : At s (outOf A batches) r (.queue .ce i))
    (hq : clear → ∀ j, q ≠ .queue .deferred j)
    (hlocated : ∀ loc, Located s (outOf A batches) loc → loc r = some (.queue .ce i) →
      Located s' (outOf A batches) (update loc r (some q))) (hnamed : Named e s')
    (htg : ∀ j, ∀ r' ≠ r, r' ∈ (s.replicas j).tgReqs → r' ∈ (s'.replicas j).tgReqs) :
    Placed e clear A batches s' := by
  refine h.move hp hq hlocated hnamed fun j r' t hget ht hA => htg j r' ?_ (h.tg j r' t hget ht hA)
  rintro rfl
  have := h.unique hp (q := .queue .tg j) (h.tg j r' t hget ht hA)
  simp at this

end

/-! ### Context encoding -/

variable {j : Fin (n + 1)}

theorem mem_tgReqs_requeue {r' : R} (hne : r' ≠ r)
    (hmem : r' ∈ (s.replicas j).tgReqs) : r' ∈ ((requeue i r s).replicas j).tgReqs := by
  by_cases hj : j = i
  · subst hj
    simpa [requeue, hne] using hmem
  · simpa [requeue, hj] using hmem

variable {rest : OrderedDict R Unit}

theorem mem_tgReqs_take {r' : R} :
    r' ∈ ((take i rest s).replicas j).tgReqs ↔ r' ∈ (s.replicas j).tgReqs := by
  have htake : ((take i rest s).replicas j).tgReqs = (s.replicas j).tgReqs :=
    replica_update (·.tgReqs) (by rfl) j
  rw [htake]

theorem activeLoras_take (rest : OrderedDict R Unit) (j : Fin (n + 1)) :
    ((take i rest s).replicas j).activeLoras = (s.replicas j).activeLoras :=
  replica_update (·.activeLoras) (by rfl) j

theorem Named.take (h : Named e s) (rest : OrderedDict R Unit) : Named e (s.take i rest) :=
  h.congr (activeLoras_take rest)

theorem Named.touch (h : Named e s) (w : W) (ctx : GenerationContext R L) :
    Named e (s.touch r w ctx) :=
  h.congr fun _ => rfl

theorem Named.requeue (h : Named e s) : Named e (s.requeue i r) :=
  h.congr (replica_update (·.activeLoras) (by rfl))

/-- The adapter of a bound request is protected. -/
theorem Named.activate (h : Named e s) {manager : Option (LoRAManager N M)} {loras : Finset N}
    (hbound : r ∈ s.boundRequests) (hsame : SameLoras s.loraManager manager)
    (hloras : loras = (s.replicas i).activeLoras ∨ s.isLora (e.modelName r) = true ∧
      loras = insert (e.modelName r) (s.replicas i).activeLoras) :
    Named e (s.activate i manager loras) := by
  have hsame' : SameLoras s.loraManager (s.activate i manager loras).loraManager := hsame
  refine ⟨h.single.imp_left hsame'.eq_none, fun r' => ?_, fun j name hname => ?_⟩
  · rw [adapter, hsame'.isLora]
    exact h.names r'
  change some name ∈ s.requestIdToLoraName.values
  by_cases hj : j = i
  · subst hj
    simp only [TextBatchConstructor.activate, update_self] at hname
    rcases hloras with rfl | ⟨hisLora, rfl⟩
    · exact h.protects j name hname
    rcases Finset.mem_insert.mp hname with rfl | hold
    · obtain ⟨k, hk⟩ := exists_get? hbound
      refine mem_values.mpr ⟨r, ?_⟩
      rw [h.names, hk, Option.map_some, adapter, if_pos hisLora]
    · exact h.protects j name hold
  · simp only [TextBatchConstructor.activate, update_of_ne hj] at hname
    exact h.protects j name hname

/-- A request that is admitted to a batch is out. -/
theorem outOf_update_ce {batch : OrderedDict R RequestType} (hr : r ∈ A) :
    outOf A (update batches i (batch.set r .ce)) = update (outOf A (update batches i batch)) i
        (insert r (outOf A (update batches i batch) i)) := by
  funext j
  by_cases hj : j = i
  · subst hj
    ext r'
    simp only [mem_outOf, update_self, Set.mem_insert_iff, get?_set]
    by_cases hr' : r' = r
    · simp [hr', hr]
    · simp [hr']
  · simp [outOf, hj]

variable {batch batch' : ReplicaBatch R}

/-- The requests are in one place each, there is room if it matters, and no grammar has failed
since `s`. -/
structure Kept (e : BatchSettings n R N W T F) (clear : Prop) (A : Finset R)
    (batches : Fin (n + 1) → OrderedDict R RequestType)
    (s s' : TextBatchConstructor n R N M L W T F) : Prop where
  placed : Placed e clear A batches s'
  room : clear → Room e A s'
  failed : s'.grammarFailed = s.grammarFailed

variable {s₀ : TextBatchConstructor n R N M L W T F}

/-- **An iteration of the CE loop keeps every request in one place.** -/
theorem Kept.ceOutcome {signal : Signal} (h : Kept e clear A (update batches i batch.batch) s₀ s)
    (hpop : (s.replicas i).ceReqs.popFirst = some ((r, ()), rest))
    (hout : CeOutcome e i batch r (s.take i rest) signal batch' s') :
    Kept e clear A (update batches i batch'.batch) s₀ s' := by
  obtain ⟨h, hroom, hfailed⟩ := h
  have hfront : At s (outOf A (update batches i batch.batch)) r (.queue .ce i) := At.of_front hpop
  have hmem := h.mem hfront
  have hback : ∀ w ctx, Placed e clear A (update batches i batch.batch)
      (((s.take i rest).touch r w ctx).requeue i r) := by
    intro w ctx
    refine h.moveFromCe hfront (q := .queue .ce i) (by simp) (fun loc hloc hr => ?_)
      ((h.named.take rest).touch w ctx).requeue fun j r' hne htg => ?_
    · rw [← hr, update_eq_self]
      exact hloc.takeRequeue hpop w ctx
    · exact mem_tgReqs_requeue hne (mem_tgReqs_take.mpr htg)
  cases hout with
  | deferred manager hmanager hno =>
    refine ⟨h.moveFromCe hfront (q := .queue .deferred i) (fun hclear j _ => ?_)
      (fun loc hloc _ => hloc.takeDefer hpop)
      ((h.named.take rest).congr (replica_update (·.activeLoras) (by rfl)))
      fun j r' _ htg => ?_, hroom, hfailed⟩
    · -- with room for all adapters it would not have been deferred
      rw [activeLoras_take] at hno
      have hyes := h.named.canAllocate (hroom hclear) h.bound_mem hmem hmanager i
      rw [hno] at hyes
      exact Bool.false_ne_true hyes
    · have hdefer : ((deferLora i r (s.take i rest)).replicas j).tgReqs
          = ((s.take i rest).replicas j).tgReqs := replica_update (·.tgReqs) (by rfl) j
      rw [hdefer]
      exact mem_tgReqs_take.mpr htg
  | unserved signal w ctx hsignal => exact ⟨hback w ctx, hroom, hfailed⟩
  | refused w w' t ctx hstatus => exact ⟨hback w' ctx, hroom, hfailed⟩
  | cordoned w ctx t =>
    refine ⟨h.moveFromCe hfront (q := .onloading i) (by simp)
      (fun loc hloc _ => hloc.takeCordon hpop w ctx t) ((h.named.take rest).congr fun _ => rfl)
      fun j r' _ htg => mem_tgReqs_take.mpr htg, hroom, hfailed⟩
  | admitted w t manager loras hstatus hsame hloras =>
    have hbound : r ∈ s.boundRequests := by
      obtain ⟨loc, hloc, -, -⟩ := h.located
      rw [← get?_isSome, hloc.bound, hloc.front hpop]
      rfl
    refine ⟨h.move hfront (q := .out i) (by simp) (fun loc hloc _ => ?_)
      (((h.named.take rest).touch w _).activate hbound hsame hloras) fun j r' t hget ht hA => ?_,
      fun hclear => (hroom hclear).congr hsame, hfailed⟩
    · rw [outOf_update_ce hmem]
      exact hloc.takeOut hpop w _ manager loras
    have hold : (update batches i batch.batch j).get? r' = some t := by
      by_cases hj : j = i
      · subst hj
        simp only [update_self, get?_set] at hget ⊢
        split at hget
        · exact absurd (Option.some.inj hget).symm ht
        · exact hget
      · simpa [hj] using hget
    change r' ∈ ((TextBatchConstructor.activate i manager loras _).replicas j).queue .tg
    rw [queue_activate]
    exact mem_tgReqs_take.mpr (h.tg j r' t hold ht hA)

/-! ### Token generation -/

/-- A request of the TG queue that is in no batch is preempted. -/
theorem Placed.preempt (h : Placed e clear A batches s) (hr : r ∈ (s.replicas i).tgReqs)
    (hbatch : (batches i).get? r = none) (w : W) (ctx : GenerationContext R L) :
    Placed e clear A batches (requeue i r (touch r w ctx s)) := by
  have hat : At s (outOf A batches) r (.queue .tg i) := hr
  refine h.move hat (q := .queue .ce i) (by simp)
    (fun loc hloc hloc_r => (hloc.touch w ctx).requeue (by simp) hloc_r)
    (h.named.touch w ctx).requeue fun j r' t hget ht hA => ?_
  refine mem_tgReqs_requeue ?_ (h.tg j r' t hget ht hA)
  rintro rfl
  have hplace := h.unique hat (q := .queue .tg j) (h.tg j r' t hget ht hA)
  rw [Place.queue.injEq] at hplace
  rw [hplace.2, hget] at hbatch
  simp at hbatch

theorem Placed.touch (h : Placed e clear A batches s) (r : R) (w : W) (ctx : GenerationContext R L) :
    Placed e clear A batches (touch r w ctx s) := by
  obtain ⟨loc, hloc, hadmitted, hdeferred⟩ := h.located
  exact ⟨⟨loc, hloc.touch w ctx, hadmitted, hdeferred⟩, h.named.touch w ctx, h.tg⟩

theorem Kept.touch (h : Kept e clear A batches s₀ s) (r : R) (w : W) (ctx : GenerationContext R L) :
    Kept e clear A batches s₀ (s.touch r w ctx) :=
  ⟨h.placed.touch r w ctx, h.room, h.failed⟩

/-- The candidates of the TG loop: requests of the TG queue that are not in the batch. -/
structure Candidates (candidates : List R) (batch : OrderedDict R RequestType) (i : Fin (n + 1))
    (s : TextBatchConstructor n R N M L W T F) : Prop where
  nodup : candidates.Nodup
  tg : ∀ c ∈ candidates, c ∈ (s.replicas i).tgReqs
  fresh : ∀ c ∈ candidates, batch.get? c = none

variable {candidates candidates' : List R}

theorem Candidates.mono {batch : OrderedDict R RequestType}
    (h : Candidates candidates batch i s) (hsub : candidates'.Sublist candidates) :
    Candidates candidates' batch i s :=
  ⟨h.nodup.sublist hsub, fun c hc => h.tg c (hsub.subset hc), fun c hc => h.fresh c (hsub.subset hc)⟩

/-- Without the one that is preempted. -/
theorem Candidates.requeue {batch : OrderedDict R RequestType}
    (h : Candidates candidates batch i s) (hr : r ∉ candidates) (w : W)
    (ctx : GenerationContext R L) :
    Candidates candidates batch i ((s.touch r w ctx).requeue i r) :=
  ⟨h.nodup, fun c hc => mem_tgReqs_requeue (ne_of_mem_of_not_mem hc hr) (h.tg c hc), h.fresh⟩

theorem TgAllocated.kept {result : Option (List R)}
    (halloc : TgAllocated i r candidates s result s') (h : Kept e clear A batches s₀ s)
    (hcand : Candidates (r :: candidates) (batches i) i s) : Kept e clear A batches s₀ s' ∧
      ∀ candidates' ∈ result, Candidates (r :: candidates') (batches i) i s' := by
  induction halloc with
  | allocated candidates s w t hactive hlen =>
    refine ⟨h.touch r w _, ?_⟩
    rintro _ ⟨⟩
    exact ⟨hcand.nodup, hcand.tg, hcand.fresh⟩
  | stuck candidates s w ctx => exact ⟨h.touch r w _, by simp⟩
  | preempted candidates oldest s s' w w' t ctx result hactive hlen hrest ih =>
    have hcons : r :: (candidates ++ [oldest]) = (r :: candidates) ++ [oldest] := rfl
    rw [hcons] at hcand
    have hnew : oldest ∉ r :: candidates := not_mem_done hcand.nodup rfl
    have htg := hcand.tg oldest (by simp)
    have hfresh := hcand.fresh oldest (by simp)
    refine ih ⟨(h.placed.touch r w _).preempt htg hfresh w' ctx, h.room, h.failed⟩ ?_
    have hmono := hcand.mono (sublist_append_left (r :: candidates) [oldest])
    exact Candidates.requeue (s := s.touch r w _) ⟨hmono.nodup, hmono.tg, hmono.fresh⟩ hnew w' ctx

/-- A request of the TG queue joins the batch. -/
theorem Placed.addTg {batch : OrderedDict R RequestType}
    (h : Placed e clear A (update batches i batch) s) (hr : r ∈ (s.replicas i).tgReqs)
    (hfresh : batch.get? r = none) : Placed e clear A (update batches i (batch.set r .tg)) s := by
  have hout : outOf A (update batches i (batch.set r .tg)) = outOf A (update batches i batch) := by
    funext j
    ext r'
    rw [mem_outOf, mem_outOf]
    by_cases hj : j = i
    · subst hj
      simp only [update_self, get?_set]
      by_cases hr' : r' = r
      · simp [hr', hfresh]
      · simp [hr']
    · simp [hj]
  refine ⟨hout ▸ h.located, h.named, fun j r' t hget ht hA => ?_⟩
  by_cases hj : j = i
  · subst hj
    simp only [update_self, get?_set] at hget
    split at hget
    · rename_i hr'
      exact hr' ▸ hr
    · exact h.tg j r' t (by simpa using hget) ht hA
  · exact h.tg j r' t (by simpa [hj] using hget) ht hA

/-- **An iteration of the TG loop keeps every request in one place.** -/
theorem Kept.tgOutcome (h : Kept e clear A (update batches i batch.batch) s₀ s)
    (hcand : Candidates (r :: candidates) batch.batch i s)
    (hout : TgOutcome i batch r candidates s candidates' batch' s') :
    Kept e clear A (update batches i batch'.batch) s₀ s' ∧
      Candidates candidates' batch'.batch i s' := by
  have hrest := hcand.mono (sublist_cons_self r candidates)
  have hr : r ∉ candidates := (nodup_cons.mp hcand.nodup).1
  have htg := hcand.tg r mem_cons_self
  have hfresh := hcand.fresh r mem_cons_self
  have hstart : ∀ ctx, Candidates (r :: candidates) (update batches i batch.batch i) i
      (s.touch r s.world ctx) := by
    intro ctx
    rw [update_self]
    exact ⟨hcand.nodup, hcand.tg, hcand.fresh⟩
  cases hout with
  | preempted w ctx =>
    exact ⟨⟨h.placed.preempt htg (by simp [hfresh]) w ctx, h.room, h.failed⟩, hrest.requeue hr w ctx⟩
  | refused ctx => exact ⟨h.touch r s.world ctx, hrest.nodup, hrest.tg, hrest.fresh⟩
  | stuck t s' halloc =>
    obtain ⟨hkept, -⟩ := halloc.kept (h.touch r s.world _) (hstart _)
    exact ⟨hkept, nodup_nil, by simp, by simp⟩
  | added candidates' s' hstatus halloc =>
    obtain ⟨⟨hplaced, hroom, hfailed⟩, hcand'⟩ := halloc.kept (h.touch r s.world _) (hstart _)
    rw [update_self] at hcand'
    have hleft := hcand' candidates' rfl
    have hmono := hleft.mono (sublist_cons_self r candidates')
    refine ⟨⟨hplaced.addTg (hleft.tg r mem_cons_self) hfresh, hroom, hfailed⟩, hmono.nodup,
      hmono.tg, fun c hc => ?_⟩
    change (batch.batch.set r .tg).get? c = none
    rw [get?_set_of_ne, hmono.fresh c hc]
    rintro rfl
    exact (nodup_cons.mp hleft.nodup).1 hc

/-- The deferred requests go back to the queue. -/
theorem Placed.restore (h : Placed e clear A batches s) (i : Fin (n + 1)) :
    Placed e clear A batches (restore i s) := by
  obtain ⟨loc, hloc, hadmitted, hdeferred⟩ := h.located
  refine ⟨⟨_, hloc.restore i, fun r => ?_, fun hclear r j => ?_⟩,
    h.named.congr (replica_update (·.activeLoras) (by rfl)), fun j r t hget ht hA => ?_⟩
  · rw [← hadmitted]
    split_ifs with hr
    · simp [hr]
    · rfl
  · rw [if_neg (hdeferred hclear r i)]
    exact hdeferred hclear r j
  · have htg : ((s.restore i).replicas j).tgReqs = (s.replicas j).tgReqs :=
      replica_update (·.tgReqs) (by rfl) j
    rw [htg]
    exact h.tg j r t hget ht hA

/-! ### Before the batches -/

/-- Only fields that do not tell where requests are have changed. -/
theorem Placed.congr (h : Placed e clear A batches s)
    (hgrammar : s'.grammarPending = s.grammarPending := by rfl)
    (hpool : s'.cePending = s.cePending := by rfl)
    (hreplicas : s'.replicas = s.replicas := by rfl)
    (honloading : s'.onloadingReqs = s.onloadingReqs := by rfl)
    (hbound : s'.boundRequests = s.boundRequests := by rfl)
    (hnames : s'.requestIdToLoraName = s.requestIdToLoraName := by rfl)
    (hmanager : s'.loraManager = s.loraManager := by rfl) : Placed e clear A batches s' := by
  obtain ⟨loc, hloc, hadmitted, hdeferred⟩ := h.located
  refine ⟨⟨loc, hloc.congr hgrammar hpool (fun j k => by rw [hreplicas]) honloading hbound,
    hadmitted, hdeferred⟩, ?_, fun j r t hget ht hA => by rw [hreplicas]; exact h.tg j r t hget ht hA⟩
  exact h.named.congr (fun j => by rw [hreplicas]) hnames hbound (hmanager ▸ SameLoras.refl _)

/-- A request that is nowhere is bound. -/
theorem Named.bound (h : Named e s) (hr : r ∉ s.boundRequests) (i : Fin (n + 1)) :
    Named e (s.bound e r i) where
  single := h.single
  names r' := by
    change (s.requestIdToLoraName.set r (adapter e s r)).get? r' =
      ((s.boundRequests.set r i).get? r').map fun _ => adapter e s r'
    rw [get?_set, get?_set]
    by_cases hr' : r' = r
    · simp [hr']
    · simp [hr', h.names]
  protects j name hname := by
    have hactive : ((s.bound e r i).replicas j).activeLoras
        = (s.replicas j).activeLoras := replica_update (·.activeLoras) (by split <;> rfl) j
    obtain ⟨r', hr'⟩ := mem_values.mp (h.protects j name (hactive ▸ hname))
    refine mem_values.mpr ⟨r', ?_⟩
    refine (get?_set_of_ne _ ?_ _).trans hr'
    rintro rfl
    rw [h.names, get?_eq_none.mpr hr] at hr'
    simp at hr'

theorem outOf_erase (hr : ∀ i, r ∉ outOf A batches i) :
    outOf (A.erase r) batches = outOf A batches := by
  funext i
  ext r'
  rw [mem_outOf, mem_outOf, Finset.mem_erase]
  refine ⟨fun h => ⟨h.1.2, h.2⟩, fun h => ⟨⟨?_, h.1⟩, h.2⟩⟩
  rintro rfl
  exact hr i h

theorem outOf_insert (hr : ∀ i, (batches i).get? r = none) :
    outOf (insert r A) batches = outOf A batches := by
  funext i
  ext r'
  rw [mem_outOf, mem_outOf, Finset.mem_insert]
  refine ⟨fun h => ⟨h.1.resolve_left ?_, h.2⟩, fun h => ⟨Or.inr h.1, h.2⟩⟩
  rintro rfl
  exact absurd (h.2.symm.trans (hr i)) (by simp)

section

variable (h : Placed e clear A batches s)

include h

/-- A request leaves. -/
theorem Placed.remove (hlocated : ∀ loc, Located s (outOf A batches) loc →
      Located s' (outOf (A.erase r) batches) (update loc r none)) (hnamed : Named e s')
    (htg : ∀ i r', r' ≠ r → r' ∈ (s.replicas i).tgReqs → r' ∈ (s'.replicas i).tgReqs) :
    Placed e clear (A.erase r) batches s' := by
  refine h.relocate (by simp) (by simp) (fun r' hr' => by simp [hr']) (fun loc hloc _ => hlocated loc hloc)
    hnamed fun j r' t hget ht hA => ?_
  obtain ⟨hne, hA'⟩ := Finset.mem_erase.mp hA
  exact htg j r' hne (h.tg j r' t hget ht hA')

/-- A request comes to a place. -/
theorem Placed.add (hr : r ∉ A) (hbatch : ∀ i, (batches i).get? r = none)
    (hq : clear → ∀ j, q ≠ .queue .deferred j)
    (hlocated : ∀ loc, Located s (outOf A batches) loc → loc r = none →
      Located s' (outOf A batches) (update loc r (some q))) (hnamed : Named e s')
    (htg : ∀ i r', r' ∈ (s.replicas i).tgReqs → r' ∈ (s'.replicas i).tgReqs) :
    Placed e clear (insert r A) batches s' := by
  refine h.relocate (r := r) (fun hclear j heq => hq hclear j (Option.some.inj heq)) (by simp)
    (fun r' hr' => by simp [hr']) (fun loc hloc hadmitted => ?_) hnamed fun j r' t hget ht hA => ?_
  · have hnone : loc r = none := by
      rw [← Option.not_isSome_iff_eq_none, hadmitted]
      exact hr
    rw [outOf_insert hbatch]
    exact hlocated loc hloc hnone
  · refine htg j r' (h.tg j r' t hget ht ((Finset.mem_insert.mp hA).resolve_left ?_))
    rintro rfl
    exact absurd (hget.symm.trans (hbatch j)) (by simp)

/-- A request that is not in a batch. -/
theorem Placed.outOf_erase (hp : At s (outOf A batches) r p)
    (hout : ∀ j, p ≠ .out j) : outOf (A.erase r) batches = outOf A batches :=
  TextBatchConstructor.outOf_erase fun j hj => hout j (h.unique hp (q := .out j) hj)

theorem Placed.eraseGrammar (hr : r ∈ s.grammarPending) :
    Placed e clear (A.erase r) batches { s with grammarPending := s.grammarPending.erase r } := by
  refine h.remove (fun loc hloc => ?_) (h.named.congr fun _ => rfl) fun _ _ _ hmem => hmem
  rw [h.outOf_erase (p := .grammar) hr (by simp)]
  exact hloc.eraseGrammar ((hloc.at_iff r .grammar).mp hr)

theorem Placed.erasePool (hr : r ∈ s.cePending) :
    Placed e clear (A.erase r) batches { s with cePending := s.cePending.erase r } := by
  refine h.remove (fun loc hloc => ?_) (h.named.congr fun _ => rfl) fun _ _ _ hmem => hmem
  rw [h.outOf_erase (p := .pool) hr (by simp)]
  exact hloc.erasePool ((hloc.at_iff r .pool).mp hr)

theorem Placed.addBound (hr : r ∉ A) (hbatch : ∀ i, (batches i).get? r = none) (i : Fin (n + 1)) :
    Placed e clear (insert r A) batches (bound e r i s) := by
  refine h.add hr hbatch (q := .queue (newQueue s r) i) ?_ (fun _ hloc hnone => hloc.addBound hnone i)
    (h.named.bound (fun hmem => hr (h.bound_mem r hmem)) i) fun j r' hmem => ?_
  · intro _ j
    rcases newQueue_cases s r with hnew | hnew <;> simp [hnew]
  · exact (mem_bound_queue (k := .tg)).mpr (Or.inl hmem)

theorem Placed.admitRequest (hr : r ∉ A) (hbatch : ∀ i, (batches i).get? r = none)
    (replicaIdx : Option (Fin (n + 1))) :
    Returns (admitRequest e r replicaIdx) s fun _ s' => Placed e clear (insert r A) batches s' ∧
      s'.loraManager = s.loraManager ∧ s'.grammarFailed = s.grammarFailed ∧
      s'.grammarPending = s.grammarPending := by
  rw [Returns, TextBatchConstructor.admitRequest, spec_get_bind]
  split
  · rw [spec_modify]
    exact ⟨h.add hr hbatch (q := .pool) (by simp) (fun _ hloc hnone => hloc.addPool hnone _ _)
      (h.named.congr fun _ => rfl) fun _ _ hmem => hmem, rfl, rfl, rfl⟩
  · refine Returns.mono (bindRequest_returns r _) ?_
    rintro _ _ rfl
    exact ⟨h.addBound hr hbatch _, rfl, rfl, rfl⟩

/-- The request is admitted, or its grammar has failed. -/
theorem Placed.installGrammar (hr : r ∉ A) (hbatch : ∀ i, (batches i).get? r = none)
    (replicaIdx : Option (Fin (n + 1))) : Returns (installGrammar e r replicaIdx) s fun _ s' =>
      (Placed e clear (insert r A) batches s' ∧ s'.grammarFailed = s.grammarFailed ∨
        Placed e clear A batches s' ∧ ∃ error, s'.grammarFailed = s.grammarFailed ++ [(r, error)]) ∧
      s'.loraManager = s.loraManager ∧ s'.grammarPending = s.grammarPending := by
  rw [Returns, TextBatchConstructor.installGrammar]
  simp only [spec_bind, spec_get, onWorld, spec_modify]
  have hworld : Placed e clear A batches
      { s with world := (e.services.installReady r s.world).2 } := h.congr
  split
  · refine Returns.mono (hworld.admitRequest hr hbatch replicaIdx) ?_
    rintro _ s' ⟨hplaced, hmanager, hfailed, hpending⟩
    exact ⟨Or.inl ⟨hplaced, hfailed⟩, hmanager, hpending⟩
  · rename_i error _
    rw [failGrammarRequest, spec_bind, onWorld, spec_modify, spec_modify]
    exact ⟨Or.inr ⟨h.congr, error, rfl⟩, rfl, rfl⟩

end

/-- The requests whose grammar has failed since `s`. -/
def newlyFailed (s s' : TextBatchConstructor n R N M L W T F) : Finset R :=
  ((s'.grammarFailed.drop s.grammarFailed.length).map Prod.fst).toFinset

theorem newlyFailed_of_eq_append {failed : List (R × String)}
    (h : s'.grammarFailed = s.grammarFailed ++ failed) :
    newlyFailed s s' = (failed.map Prod.fst).toFinset := by
  rw [newlyFailed, h, drop_left]

/-- The state while the requests whose grammars are ready are gone through. -/
structure Promoted (e : BatchSettings n R N W T F) (clear : Prop) (A : Finset R)
    (batches : Fin (n + 1) → OrderedDict R RequestType)
    (s : TextBatchConstructor n R N M L W T F) (done : List R)
    (s' : TextBatchConstructor n R N M L W T F) : Prop where
  failed : ∃ failed, s'.grammarFailed = s.grammarFailed ++ failed ∧
    Placed e clear (A \ (failed.map Prod.fst).toFinset) batches s'
  manager : s'.loraManager = s.loraManager
  pending : ∀ r ∈ s.grammarPending, r ∉ done → r ∈ s'.grammarPending

theorem Promoted.step {done : List R} (h : Promoted e clear A batches s done s')
    (hr : r ∈ s.grammarPending) (hdone : r ∉ done) (hbatch : ∀ i, (batches i).get? r = none)
    (replicaIdx : Option (Fin (n + 1))) :
    Returns (do
      modify fun s => { s with grammarPending := s.grammarPending.erase r }
      installGrammar e r replicaIdx) s' fun _ s'' => Promoted e clear A batches s (done ++ [r]) s'' := by
  obtain ⟨⟨failed, hfailed, hplaced⟩, hmanager, hpending⟩ := h
  have hmem := hpending r hr hdone
  have hadmitted := hplaced.mem (p := .grammar) hmem
  have herased := hplaced.eraseGrammar hmem
  have hkeep : ∀ r' ∈ s.grammarPending, r' ∉ done ++ [r] → r' ∈ s'.grammarPending.erase r := by
    intro r' hr' hdone'
    rw [mem_append, mem_singleton, not_or] at hdone'
    exact mem_erase.mpr ⟨hdone'.2, hpending r' hr' hdone'.1⟩
  rw [Returns, spec_bind, spec_modify]
  refine Returns.mono (herased.installGrammar (Finset.notMem_erase r _) hbatch replicaIdx) ?_
  rintro _ s'' ⟨hcase, hmanager', hpending'⟩
  refine ⟨?_, hmanager'.trans hmanager, fun r' hr' hdone' => hpending' ▸ hkeep r' hr' hdone'⟩
  rcases hcase with ⟨hadded, hsame⟩ | ⟨hlost, error, hnew⟩
  · rw [Finset.insert_erase hadmitted] at hadded
    exact ⟨failed, hsame.trans hfailed, hadded⟩
  refine ⟨failed ++ [(r, error)], ?_, ?_⟩
  · rw [hnew, ← append_assoc, ← hfailed]
  rw [map_append, toFinset_append]
  have hset : A \ ((failed.map Prod.fst).toFinset ∪ (map Prod.fst [(r, error)]).toFinset)
      = (A \ (failed.map Prod.fst).toFinset).erase r := by
    ext r'
    simp only [Finset.mem_sdiff, Finset.mem_union, map_cons, map_nil, toFinset_cons, toFinset_nil,
      Finset.mem_insert, Finset.notMem_empty, or_false, Finset.mem_erase]
    tauto
  rw [hset]
  exact hlost

theorem Placed.promote (h : Placed e clear A (fun _ => .empty) s) :
    Returns (promoteGrammarReadyRequests e) s fun _ s' =>
      Placed e clear (A \ newlyFailed s s') (fun _ => .empty) s' ∧ s'.loraManager = s.loraManager := by
  have hstart : Promoted e clear A (fun _ => .empty) s [] s :=
    ⟨⟨[], (append_nil _).symm, by simpa using h⟩, rfl, fun _ hr _ => hr⟩
  have hend : ∀ done s', Promoted e clear A (fun _ => .empty) s done s' →
      Placed e clear (A \ newlyFailed s s') (fun _ => .empty) s' ∧ s'.loraManager = s.loraManager := by
    rintro done s' ⟨⟨failed, hfailed, hplaced⟩, hmanager, -⟩
    rw [newlyFailed_of_eq_append hfailed]
    exact ⟨hplaced, hmanager⟩
  rw [Returns, promoteGrammarReadyRequests, spec_get_bind]
  split
  · refine Spec.imp (Spec.forM (E := fun _ _ => False) (I := fun done s' =>
      Promoted e clear A (fun _ => .empty) s (done.map Prod.fst) s') _ ?_ hstart) (fun _ s' => hend _ s')
    rintro done ⟨r, replicaIdx⟩ todo hready s' hpromoted
    have hentry : (r, replicaIdx) ∈ s.grammarPending.entries :=
      mem_of_mem_filter (hready ▸ mem_append_right done mem_cons_self)
    have hnew : r ∉ done.map Prod.fst := not_mem_map_done
      (s.grammarPending.nodup.sublist (Sublist.map _ filter_sublist)) hready
    rw [map_append]
    exact hpromoted.step (mem_map_of_mem hentry) hnew (fun _ => rfl) replicaIdx
  · exact hend [] s hstart

/-- A request of the pool is bound. -/
theorem Placed.boundFromPool (h : Placed e clear A batches s) (hr : r ∈ s.cePending)
    (hbatch : ∀ i, (batches i).get? r = none) (i : Fin (n + 1)) :
    Placed e clear A batches (boundFromPool e r i s) := by
  have hadmitted := h.mem (p := .pool) hr
  have hadded := (h.erasePool hr).addBound (Finset.notMem_erase r A) hbatch i
  rwa [Finset.insert_erase hadmitted] at hadded

/-- No batch is out, and the adapters and the failed grammars are those of `s`. -/
structure Prepared (e : BatchSettings n R N W T F) (clear : Prop) (A : Finset R)
    (s s' : TextBatchConstructor n R N M L W T F) : Prop where
  placed : Placed e clear A (fun _ => .empty) s'
  manager : s'.loraManager = s.loraManager
  failed : s'.grammarFailed = s.grammarFailed

theorem Prepared.bindPool (h : Prepared e clear A s₀ s) {binds : List (R × Fin (n + 1))}
    (hnodup : (binds.map Prod.fst).Nodup) (hmem : ∀ b ∈ binds, b.1 ∈ s.cePending) :
    Returns (bindPool e binds) s fun _ s' => Prepared e clear A s₀ s' := by
  refine Spec.imp (Spec.forM (E := fun _ _ => False) (I := fun done s' => Prepared e clear A s₀ s' ∧
      ∀ b ∈ binds, b.1 ∉ done.map Prod.fst → b.1 ∈ s'.cePending) binds ?_ ⟨h, ?_⟩)
    (fun _ _ hI => hI.1)
  · rintro done ⟨r, i⟩ todo hbinds s' ⟨⟨hplaced, hmanager, hfailed⟩, hpool⟩
    have hr := hpool (r, i) (by simp [hbinds]) (not_mem_map_done hnodup hbinds)
    simp only [spec_bind, spec_modify]
    refine Returns.mono (bindRequest_returns r i) ?_
    rintro _ _ rfl
    refine ⟨⟨hplaced.boundFromPool hr (fun _ => rfl) i, hmanager, hfailed⟩, fun b hb hdone => ?_⟩
    rw [map_append, mem_append, not_or] at hdone
    refine mem_erase.mpr ⟨?_, hpool b hb hdone.1⟩
    simpa using hdone.2
  · exact fun b hb _ => hmem b hb

theorem Placed.plan (h : Placed e clear A (fun _ => .empty) s) :
    Spec (planCeStep e) s (fun _ s' => Prepared e clear A s s') fun _ _ => True := by
  rw [planCeStep]
  simp only [spec_bind, spec_modify, spec_get]
  have hstart : Prepared e clear A s { s with ceDeferredReplicas := ∅, ceStepQuota := none } :=
    ⟨h.congr, rfl, rfl⟩
  split
  · rw [spec_bind]
    refine Spec.mono_ok (Spec.foldlM (E := fun _ _ => True)
      (I := fun _ _ s' => Prepared e clear A s s') _ _ ?_ hstart) ?_
    · rintro - r - - loads s' ⟨hplaced, hmanager, hfailed⟩
      rw [bindExpired, spec_get_bind]
      cases hget : s'.cePending.get? r with
      | none => trivial
      | some weights =>
        have hmem := mem_of_get? hget
        simp only [spec_bind, spec_modify]
        refine Returns.mono (bindRequest_returns r _) ?_
        rintro _ _ rfl
        exact ⟨hplaced.boundFromPool hmem (fun _ => rfl) _, hmanager, hfailed⟩
    · rintro loads s' hs'
      rw [commitStep]
      simp only [spec_bind, spec_get]
      split
      · set tails := fillTails e _ loads.stepLoad
        have hfits := fillPool_fits (e := e) tails.2 s'.cePending.entries loads tails.1
        rw [spec_bind]
        refine Returns.mono (hs'.bindPool ?_ ?_) ?_
        · exact hfits.sublist.nodup (((perm_sortPool _).map Prod.fst).nodup_iff.mpr
            s'.cePending.nodup)
        · intro b hb
          have hmem := hfits.sublist.subset (mem_map_of_mem hb)
          exact ((perm_sortPool _).map Prod.fst).mem_iff.mp hmem
        · rintro _ s'' ⟨hplaced, hmanager, hfailed⟩
          rw [spec_modify]
          exact ⟨hplaced.congr, hmanager, hfailed⟩
      · rw [spec_modify]
        exact ⟨hs'.placed.congr, hs'.manager, hs'.failed⟩
  · exact hstart

theorem Placed.readmitted (h : Placed e clear A (fun _ => .empty) s) :
    Returns (readmitCompletedOnloads e) s fun _ s' => Prepared e clear A s s' := by
  rw [Returns, readmitCompletedOnloads, spec_get_bind]
  refine Spec.imp (Spec.forM (E := fun _ _ => False) (I := fun done s' => Prepared e clear A s s' ∧
      ∀ r, r ∉ done.map Prod.fst → s'.onloadingReqs.get? r = s.onloadingReqs.get? r) _ ?_
    ⟨⟨h, rfl, rfl⟩, fun _ _ => rfl⟩) (fun _ _ hI => hI.1)
  rintro done ⟨r, i, t⟩ todo hcompleted s' ⟨⟨hplaced, hmanager, hfailed⟩, honloading⟩
  have hentry : (r, i, t) ∈ s.onloadingReqs.entries :=
    mem_of_mem_filter (hcompleted ▸ mem_append_right done mem_cons_self)
  have hnew : r ∉ done.map Prod.fst := not_mem_map_done
    (s.onloadingReqs.nodup.sublist (Sublist.map _ filter_sublist)) hcompleted
  have hat : At s' (outOf A fun _ => .empty) r (.onloading i) :=
    ⟨t, (honloading r hnew).trans (get?_eq_some.mpr hentry)⟩
  simp only [spec_bind, spec_modify, onReplica]
  refine ⟨⟨hplaced.move hat (q := .queue .ce i) (by simp) (fun _ hloc hp => hloc.readmitted hp)
    (hplaced.named.congr (replica_update (·.activeLoras) (by rfl))) (by
      intro j r' t hget
      exact absurd hget (by simp [empty, get?])), hmanager, hfailed⟩, ?_⟩
  intro r' hr'
  rw [map_append, mem_append, not_or] at hr'
  rw [get?_erase_of_ne _ (by simpa using hr'.2)]
  exact honloading r' hr'.1

theorem Room.of_manager (h : Room e A s) (hsub : A' ⊆ A)
    (hmanager : s'.loraManager = s.loraManager) : Room e A' s' := by
  intro m hm
  refine (Finset.card_le_card (Finset.image_subset_image (Finset.filter_subset_filter _ hsub))).trans
    (h m (hmanager ▸ hm))

end TextBatchConstructor
