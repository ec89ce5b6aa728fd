/-
The adapters of the requests that generate tokens
(`serve/scheduler/batch_constructor/text_batch_constructor.py`).

A replica protects the adapters of the requests it has admitted.  A request for another adapter is
admitted if there is room for one more beside the protected ones; which adapter leaves its slot is
decided by the order in which they were activated.

* `LoraState` — the bookkeeping of a replica, with the requests that were admitted;
* `Protected` — every protected adapter is active, and every slot is held by one adapter;
* `run_protected_iff` — that is so along a run exactly when no admission finds a protected adapter
  to be the least recently used one while no slot is free.
-/
import MojoMac.LoraCache

open StateSpec List OrderedDict

set_option linter.unusedSectionVars false

/-- The adapters of a replica and the requests that use them. -/
structure LoraState (R N M : Type) where
  loraManager : LoRAManager N M
  activeLoras : Finset N
  requestIdToLoraName : OrderedDict R (Option N)
  admitted : Finset R

namespace LoraState

variable {R N M : Type} [DecidableEq R] [DecidableEq N]

def init (maxNumLoras : ℕ) (loras : N → Option M) : LoraState R N M :=
  ⟨.init maxNumLoras loras, ∅, .empty, ∅⟩

/-- The name kept for a request in `_bind_request`. -/
def bindRequest (requestId : R) (modelName : N) (s : LoraState R N M) : LoraState R N M :=
  { s with
    requestIdToLoraName := s.requestIdToLoraName.set requestId
      (if s.loraManager.isLora modelName then some modelName else none) }

/-- `ReplicaRequests.add_active_lora`. -/
def addActiveLora (modelName : N) : PyM (LoraState R N M) Unit := do
  if (← get).loraManager.isLora modelName then
    let _ ← focus (·.loraManager) (fun m s => { s with loraManager := m })
      (LoRAManager.activateAdapter modelName)
    modify fun s => { s with activeLoras := insert modelName s.activeLoras }

/-- A request is taken from the context-encoding queue: it is admitted, or deferred. -/
def admitRequest (requestId : R) (modelName : N) : PyM (LoraState R N M) Unit := do
  let s ← get
  if canAllocateLoraRequest modelName s.activeLoras s.loraManager then
    addActiveLora modelName
    modify fun s => { s with admitted := insert requestId s.admitted }

/-- The part of `release_request` about adapters. -/
def releaseRequest (requestId : R) (s : LoraState R N M) : LoraState R N M :=
  let rest := s.requestIdToLoraName.erase requestId
  let activeLoras := match s.requestIdToLoraName.get? requestId with
    | some (some loraName) =>
      if some loraName ∈ rest.values then s.activeLoras else s.activeLoras.erase loraName
    | _ => s.activeLoras
  { s with
    requestIdToLoraName := rest
    activeLoras := activeLoras
    admitted := s.admitted.erase requestId }

/-! ### Runs -/

variable (modelName : R → N) {s : LoraState R N M}

/-- The operations on a request: it is bound to the replica, taken from its queue, or released. -/
inductive Op (R : Type) where
  | bind (requestId : R)
  | accept (requestId : R)
  | release (requestId : R)

/-- The state after an operation.  Only a request that is bound is in a queue. -/
def step (s : LoraState R N M) : Op R → LoraState R N M
  | .bind r => s.bindRequest r (modelName r)
  | .accept r =>
    if r ∈ s.requestIdToLoraName then finalState (admitRequest r (modelName r)) s else s
  | .release r => s.releaseRequest r

/-- What is to hold: the protected adapters are active, so is that of each request that was
admitted, and no two adapters have the same slot. -/
structure Protected (s : LoraState R N M) : Prop where
  active : ∀ name ∈ s.activeLoras, s.loraManager.isActiveLora name = true
  generating : ∀ r ∈ s.admitted, s.loraManager.isLora (modelName r) = true →
    s.loraManager.isActiveLora (modelName r) = true
  slots : ∀ name name' slot, s.loraManager.activeLoras.nameToSlot name = some slot →
    s.loraManager.activeLoras.nameToSlot name' = some slot → name = name'

/-- When an admission evicts no protected adapter: it needs no slot, or one is free, or the least
recently used adapter is not protected. -/
def Op.Safe (s : LoraState R N M) : Op R → Prop
  | .accept r =>
    r ∉ s.requestIdToLoraName ∨
    canAllocateLoraRequest (modelName r) s.activeLoras s.loraManager = false ∨
    s.loraManager.isLora (modelName r) = false ∨
    s.loraManager.isActiveLora (modelName r) = true ∨
    s.loraManager.activeLoras.freeSlots.Nonempty ∨
    ∀ name, s.loraManager.activeLoras.cache.keys.head? = some name → name ∉ s.activeLoras
  | _ => True

/-- The invariant of the bookkeeping. -/
structure Inv (s : LoraState R N M) : Prop where
  wf : s.loraManager.activeLoras.WF
  maxSize : s.loraManager.activeLoras.maxSize = s.loraManager.maxNumLoras
  active : ∀ name ∈ s.activeLoras, name ∈ s.loraManager.activeLoras.cache
  names : ∀ r name, s.requestIdToLoraName.get? r = some name →
    name = if s.loraManager.isLora (modelName r) then some (modelName r) else none
  admitted : ∀ r ∈ s.admitted, s.loraManager.isLora (modelName r) = true →
    modelName r ∈ s.activeLoras ∧ s.requestIdToLoraName.get? r = some (some (modelName r))

theorem init_inv (maxNumLoras : ℕ) (loras : N → Option M) :
    Inv modelName (init maxNumLoras loras : LoraState R N M) where
  wf := LoRALRUCache.init_wf maxNumLoras
  maxSize := rfl
  active name hname := absurd hname (Finset.notMem_empty name)
  names r name h := by simp [init, empty, get?] at h
  admitted r hr := absurd hr (Finset.notMem_empty r)

variable {modelName} {name : N}

theorem isActiveLora_iff {m : LoRAManager N M} :
    m.isActiveLora name = true ↔ name ∈ m.activeLoras.cache := by
  simp [LoRAManager.isActiveLora]

theorem Inv.protected (h : Inv modelName s) : Protected modelName s where
  active name hname := isActiveLora_iff.mpr (h.active name hname)
  generating r hr hlora := isActiveLora_iff.mpr (h.active _ (h.admitted r hr hlora).1)
  slots name name' slot hname hname' := by
    obtain ⟨m, hmem⟩ := (h.wf.nameToSlot name slot).mp hname
    obtain ⟨m', hmem'⟩ := (h.wf.nameToSlot name' slot).mp hname'
    have hentry := inj_on_of_nodup_map h.wf.nodup hmem hmem' rfl
    exact congrArg Prod.fst hentry

/-- The adapter of a request is activated and protected. -/
theorem Inv.addActiveLora (h : Inv modelName s) (hlora : s.loraManager.isLora name = true)
    (hallowed : canAllocateLoraRequest name s.activeLoras s.loraManager = true) :
    Returns (addActiveLora name) s fun _ s' => ∃ c evicted, c.WF ∧
      c.maxSize = s.loraManager.activeLoras.maxSize ∧
      LoRALRUCache.Puts s.loraManager.activeLoras name c evicted ∧ s' = { s with
        loraManager := { s.loraManager with activeLoras := c }
        activeLoras := insert name s.activeLoras } := by
  obtain ⟨lora, hsome⟩ := Option.isSome_iff_exists.mp hlora
  have hpos : name ∈ s.loraManager.activeLoras.cache ∨ 0 < s.loraManager.activeLoras.maxSize := by
    rw [or_iff_not_imp_left, h.maxSize]
    intro hnot
    have hprotected : name ∉ s.activeLoras := fun hmem => hnot (h.active name hmem)
    have hactive : ¬ s.loraManager.isActiveLora name = true := fun hact =>
      hnot (isActiveLora_iff.mp hact)
    simp only [canAllocateLoraRequest, hlora, hprotected, hactive, Bool.not_true, decide_false,
      Bool.false_or, decide_eq_true_eq] at hallowed
    omega
  rw [Returns, LoraState.addActiveLora]
  simp only [spec_bind, spec_get, hlora, if_true, spec_focus, LoRAManager.activateAdapter, hsome]
  refine Spec.imp (LoRALRUCache.put_spec h.wf hpos lora) ?_
  rintro evicted c ⟨hwf, hmax, hputs⟩
  exact ⟨c, evicted, hwf, hmax, hputs, rfl⟩

variable {c : LoRALRUCache N M} {evicted : Option (N × ℕ)}

/-- The names that are active after an adapter was activated. -/
theorem mem_of_puts {c' : LoRALRUCache N M}
    (h : LoRALRUCache.Puts c name c' evicted) : name ∈ c'.cache := by
  cases h with
  | refresh hkey hkeys => exact (hkeys name).mpr hkey
  | free hkey hfree hkeys | evict hkey hfree old slot rest hold hkeys =>
    rw [← OrderedDict.mem_keys, hkeys]
    exact mem_append_right _ mem_cons_self

/-- The protected adapters stay active exactly when the one that is evicted is not protected. -/
theorem active_iff_of_puts {c' : LoRALRUCache N M}
    (h : LoRALRUCache.Puts c name c' evicted) {names : Finset N} (hactive : ∀ n ∈ names, n ∈ c.cache) :
    (∀ n ∈ names, n ∈ c'.cache) ↔ name ∈ c.cache ∨ c.freeSlots.Nonempty ∨
      ∀ n, c.cache.keys.head? = some n → n ∉ names := by
  cases h with
  | refresh hkey hkeys =>
    exact ⟨fun _ => Or.inl hkey, fun _ n hn => (hkeys n).mpr (hactive n hn)⟩
  | free hkey hfree hkeys =>
    refine ⟨fun _ => Or.inr (Or.inl hfree), fun _ n hn => ?_⟩
    rw [← OrderedDict.mem_keys, hkeys]
    exact mem_append_left _ (hactive n hn)
  | evict hkey hfree old slot rest hold hkeys =>
    have hnodup := c.cache.nodup_keys
    rw [hold, nodup_cons] at hnodup
    have hmem : ∀ n, n ∈ c'.cache ↔ n ∈ rest ∨ n = name := by
      intro n
      rw [← OrderedDict.mem_keys, hkeys, mem_append, mem_singleton]
    have hsafe : (name ∈ c.cache ∨ c.freeSlots.Nonempty ∨
        ∀ n, c.cache.keys.head? = some n → n ∉ names) ↔ old ∉ names := by
      rw [or_iff_right hkey, hfree, or_iff_right Finset.not_nonempty_empty, hold]
      simp
    rw [hsafe]
    constructor
    · intro hall hold_mem
      rcases (hmem old).mp (hall old hold_mem) with hrest | rfl
      · exact hnodup.1 hrest
      · exact hkey (hactive old hold_mem)
    · intro hnot n hn
      have hin := hactive n hn
      rw [← OrderedDict.mem_keys, hold, mem_cons] at hin
      rcases hin with rfl | hrest
      · exact absurd hn hnot
      · exact (hmem n).mpr (Or.inl hrest)

/-- An operation that is safe keeps the invariant. -/
def Keeps (modelName : R → N) (s : LoraState R N M) (op : Op R) : Prop :=
  (op.Safe modelName s → Inv modelName (s.step modelName op)) ∧
    (Protected modelName (s.step modelName op) → op.Safe modelName s)

section

variable (h : Inv modelName s)

include h

theorem Inv.bind (r : R) : Keeps modelName s (.bind r) := by
  refine ⟨fun _ => ⟨h.wf, h.maxSize, h.active, ?_, ?_⟩, fun _ => trivial⟩
  · intro r' name hname
    by_cases hr : r' = r
    · rw [hr] at hname ⊢
      exact (Option.some.inj ((get?_set_self _ r _).symm.trans hname)).symm
    · exact h.names r' name ((get?_set_of_ne _ hr _).symm.trans hname)
  · intro r' hr' hlora
    obtain ⟨hactive, hname⟩ := h.admitted r' hr' hlora
    refine ⟨hactive, ?_⟩
    by_cases hr : r' = r
    · rw [hr] at hlora ⊢
      exact (get?_set_self _ r _).trans (congrArg some (if_pos hlora))
    · exact (get?_set_of_ne _ hr _).trans hname

theorem Inv.release (r : R) : Keeps modelName s (.release r) := by
  have hsubset : ∀ name ∈ (s.releaseRequest r).activeLoras, name ∈ s.activeLoras := by
    intro name hname
    simp only [releaseRequest] at hname
    split at hname
    · split at hname
      · exact hname
      · exact Finset.mem_of_mem_erase hname
    · exact hname
  refine ⟨fun _ => ⟨h.wf, h.maxSize, fun name hname => h.active name (hsubset name hname), ?_, ?_⟩,
    fun _ => trivial⟩
  · intro r' name hname
    change (s.requestIdToLoraName.erase r).get? r' = some name at hname
    by_cases hr : r' = r
    · rw [hr, get?_erase_self] at hname
      exact absurd hname (by simp)
    · exact h.names r' name ((get?_erase_of_ne _ hr).symm.trans hname)
  intro r' hr' hlora
  obtain ⟨hne, hmem⟩ := Finset.mem_erase.mp hr'
  obtain ⟨hactive, hname⟩ := h.admitted r' hmem hlora
  have hrest : (s.requestIdToLoraName.erase r).get? r' = some (some (modelName r')) :=
    (get?_erase_of_ne _ hne).trans hname
  refine ⟨?_, hrest⟩
  -- the adapter is kept: if it is the released request's as well, another request has it
  change modelName r' ∈ (s.releaseRequest r).activeLoras
  simp only [releaseRequest]
  split
  · rename_i loraName _
    split_ifs with hunused
    · exact hactive
    · refine Finset.mem_erase.mpr ⟨?_, hactive⟩
      intro heq
      exact hunused (mem_values.mpr ⟨r', heq ▸ hrest⟩)
  · exact hactive

/-- A request that needs no adapter is admitted. -/
theorem Inv.insert_admitted {r : R} (hlora : s.loraManager.isLora (modelName r) = false) :
    Inv modelName { s with admitted := insert r s.admitted } := by
  refine ⟨h.wf, h.maxSize, h.active, h.names, ?_⟩
  intro r' hr' hlora'
  rcases Finset.mem_insert.mp hr' with rfl | hmem
  · exact absurd (hlora.symm.trans hlora') (by simp)
  · exact h.admitted r' hmem hlora'

/-- A request whose adapter was activated is admitted, if the protected adapters stayed. -/
theorem Inv.activated {r : R} (hmem : r ∈ s.requestIdToLoraName)
    (hlora : s.loraManager.isLora (modelName r) = true) (hwf : c.WF)
    (hmax : c.maxSize = s.loraManager.activeLoras.maxSize)
    (hactive : ∀ name ∈ insert (modelName r) s.activeLoras, name ∈ c.cache) : Inv modelName { s with
      loraManager := { s.loraManager with activeLoras := c }
      activeLoras := insert (modelName r) s.activeLoras
      admitted := insert r s.admitted } := by
  refine ⟨hwf, hmax.trans h.maxSize, hactive, h.names, ?_⟩
  intro r' hr' hlora'
  rcases Finset.mem_insert.mp hr' with rfl | hold
  · obtain ⟨name, hname⟩ := exists_get? hmem
    refine ⟨Finset.mem_insert_self _ _, ?_⟩
    have hkept := h.names r' name hname
    rw [if_pos hlora] at hkept
    exact hname.trans (congrArg some hkept)
  · obtain ⟨hin, hname⟩ := h.admitted r' hold hlora'
    exact ⟨Finset.mem_insert_of_mem hin, hname⟩

theorem Inv.accept (r : R) : Keeps modelName s (.accept r) := by
  by_cases hmem : r ∈ s.requestIdToLoraName
  swap
  · have hstep : s.step modelName (.accept r) = s := if_neg hmem
    exact ⟨fun _ => hstep.symm ▸ h, fun _ => Or.inl hmem⟩
  by_cases hallowed : canAllocateLoraRequest (modelName r) s.activeLoras s.loraManager = true
  swap
  · have hstep : s.step modelName (.accept r) = s := by
      rw [step, if_pos hmem]
      refine Spec.finalState (P := (· = s)) ?_
      simp [admitRequest, hallowed]
    rw [Bool.not_eq_true] at hallowed
    exact ⟨fun _ => hstep.symm ▸ h, fun _ => Or.inr (Or.inl hallowed)⟩
  by_cases hlora : s.loraManager.isLora (modelName r) = true
  swap
  · have hstep : s.step modelName (.accept r) = { s with admitted := insert r s.admitted } := by
      rw [step, if_pos hmem]
      refine Spec.finalState (P := (· = { s with admitted := insert r s.admitted })) ?_
      simp [admitRequest, hallowed, LoraState.addActiveLora, hlora]
    rw [Bool.not_eq_true] at hlora
    exact ⟨fun _ => hstep.symm ▸ h.insert_admitted hlora, fun _ => Or.inr (Or.inr (Or.inl hlora))⟩
  -- the adapter is activated: what leaves the cache decides
  rw [Keeps, step, if_pos hmem]
  let P := fun s' : LoraState R N M => (Op.Safe modelName s (.accept r) → Inv modelName s') ∧
    (Protected modelName s' → Op.Safe modelName s (.accept r))
  refine Spec.finalState (P := P) ?_
  rw [admitRequest]
  simp only [spec_bind, spec_get, hallowed, if_true]
  refine Returns.mono (h.addActiveLora hlora hallowed) ?_
  rintro _ _ ⟨c, evicted, hwf, hmax, hputs, rfl⟩
  have hstay := active_iff_of_puts hputs h.active
  have hsafe : Op.Safe modelName s (.accept r) ↔ ∀ n ∈ s.activeLoras, n ∈ c.cache := by
    rw [hstay, Op.Safe]
    simp only [hmem, hallowed, hlora, not_true_eq_false, Bool.true_eq_false, false_or,
      isActiveLora_iff]
  rw [spec_modify]
  constructor
  · intro hs
    refine h.activated hmem hlora hwf hmax ?_
    intro name hname
    rcases Finset.mem_insert.mp hname with rfl | hold
    · exact mem_of_puts hputs
    · exact hsafe.mp hs name hold
  · intro hprotected
    refine hsafe.mpr fun n hn => ?_
    exact isActiveLora_iff.mp (hprotected.active n (Finset.mem_insert_of_mem hn))

theorem Inv.step : ∀ op : Op R, Keeps modelName s op
  | .bind r => h.bind r
  | .accept r => h.accept r
  | .release r => h.release r

end

/-! ### The claim about whole runs -/

variable (modelName)

/-- A predicate holds in every state of a run. -/
def Along (P : LoraState R N M → Prop) : LoraState R N M → List (Op R) → Prop
  | s, [] => P s
  | s, op :: ops => P s ∧ Along P (s.step modelName op) ops

/-- Every operation of a run is safe where it happens. -/
def SafeRun : LoraState R N M → List (Op R) → Prop
  | _, [] => True
  | s, op :: ops => op.Safe modelName s ∧ SafeRun (s.step modelName op) ops

variable {modelName}

theorem Inv.run_protected (h : Inv modelName s) (ops : List (Op R)) :
    Along modelName (Protected modelName) s ops ↔ SafeRun modelName s ops := by
  induction ops generalizing s with
  | nil => exact ⟨fun _ => trivial, fun _ => h.protected⟩
  | cons op ops ih =>
    obtain ⟨hsafe, hprotected⟩ := h.step op
    constructor
    · rintro ⟨-, hrest⟩
      have hfirst : Protected modelName (s.step modelName op) := by
        cases ops with
        | nil => exact hrest
        | cons _ _ => exact hrest.1
      have hs := hprotected hfirst
      exact ⟨hs, (ih (hsafe hs)).mp hrest⟩
    · rintro ⟨hs, hrest⟩
      exact ⟨h.protected, (ih (hsafe hs)).mpr hrest⟩

/-- Two slots.  Request 0 generates with the first adapter; request 1 comes with the second and is
released; request 2 comes with a third. -/
def thirdAdapter : List (Op ℕ) :=
  [.bind 0, .accept 0, .bind 1, .accept 1, .release 1, .bind 2, .accept 2]

end LoraState
